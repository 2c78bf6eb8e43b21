import Stencil.Proofs.Direct.Process

/-!
# The bound of an evaluation

An evaluation that does not reach its bound is the same under any larger one.
-/

namespace Stencil
namespace Direct

variable {α β : Type} {host : Host}

/-- Where the first computation does not reach its bound, the second does the same. -/
def Below (first second : Direct α) : Prop :=
  ∀ ledger, (first.outcome ledger).1 ≠ .error .exhausted →
    second.outcome ledger = first.outcome ledger

theorem Below.refl (direct : Direct α) : direct.Below direct :=
  fun _ _ => rfl

theorem exhausted_below (direct : Direct α) : Below (throw .exhausted) direct :=
  fun _ h => absurd rfl h

theorem Below.bind {first second : Direct α} {f g : α → Direct β} (h : first.Below second)
    (hf : ∀ a, (f a).Below (g a)) : (first >>= f).Below (second >>= g) := by
  intro ledger hne
  rw [outcome_bind] at hne
  rw [outcome_bind, outcome_bind]
  rcases hc : first.outcome ledger with ⟨stop | result, after⟩
  · have hstop : (first.outcome ledger).1 ≠ .error .exhausted := by
      rw [hc] at hne ⊢
      rintro ⟨⟩
      exact hne rfl
    rw [h ledger hstop, hc]
  · have hresult : (first.outcome ledger).1 ≠ .error .exhausted := by
      rw [hc]
      exact nofun
    rw [h ledger hresult, hc]
    rw [hc] at hne
    exact hf result after hne

theorem below_mapM {ι : Type*} {f g : ι → Direct β} (h : ∀ i, (f i).Below (g i)) (is : List ι) :
    (is.mapM f).Below (is.mapM g) := by
  induction is with
  | nil => exact .refl _
  | cons i is ih =>
    rw [List.mapM_cons, List.mapM_cons]
    exact (h i).bind fun _ => ih.bind fun _ => .refl _

variable {bound more : Nat}

theorem below_settle (h : bound ≤ more) (v : Value) :
    (settle host bound v).Below (settle host more v) := by
  induction bound generalizing more v with
  | zero =>
    cases v with
    | pending id => exact exhausted_below _
    | _ => cases more <;> exact .refl _
  | succ bound ih =>
    obtain ⟨more, rfl⟩ : ∃ n, more = n + 1 := ⟨more - 1, by omega⟩
    cases v with
    | pending id => exact (Below.refl _).bind fun v => ih (by omega) v
    | _ => exact .refl _

theorem below_settleDeep (h : bound ≤ more) (v : Value) :
    (settleDeep host bound v).Below (settleDeep host more v) := by
  induction bound generalizing more v with
  | zero => exact exhausted_below _
  | succ bound ih =>
    obtain ⟨more, rfl⟩ : ∃ n, more = n + 1 := ⟨more - 1, by omega⟩
    refine (below_settle h v).bind fun settled => ?_
    cases settled with
    | list items =>
      by_cases hs : items.all Value.isSettled = true
      · simp only [hs, if_true]
        exact .refl _
      · simp only [hs]
        exact (below_mapM (fun item => ih (by omega) item) items).bind fun _ => .refl _
    | _ => exact .refl _

theorem below_descend (h : bound ≤ more) (keys : List Text) (v : Value) :
    (descend host bound keys v).Below (descend host more keys v) := by
  induction keys generalizing v with
  | nil => exact .refl _
  | cons key keys ih =>
    simp only [descend]
    cases v.get? key with
    | none => exact .refl _
    | some next => exact (below_settle h next).bind ih

theorem below_lookup (h : bound ≤ more) (context : Context) (path : KeyPath) :
    (lookup host bound context path).Below (lookup host more context path) := by
  rcases path with _ | _ | ⟨key, keys⟩
  · exact .refl _
  · exact .refl _
  · simp only [lookup]
    cases context.find? key with
    | none => exact .refl _
    | some found => exact (below_settle h found).bind (below_descend h keys)

theorem below_answer {expand other : Text → Direct Text}
    (h : ∀ source, (expand source).Below (other source)) (reply : Answer) :
    (answer expand reply).Below (answer other reply) := by
  induction reply with
  | value v => exact .refl _
  | render source next ih => exact (h source).bind ih

theorem below_deciding (h : bound ≤ more) (found : Option Value) :
    (deciding host bound found).Below (deciding host more found) := by
  rcases found with _ | v
  · exact .refl _
  · cases v with
    | lambda called =>
      cases called with
      | inline id =>
        exact (Below.refl _).bind fun v => (below_settle h v).bind fun _ => .refl _
      | block id => exact .refl _
    | _ => exact .refl _

variable {setting : Setting} {expand other : Expand}

mutual
theorem below_node (h : bound ≤ more)
    (he : ∀ source tags context, (expand source tags context).Below (other source tags context)) :
    (n : Node) → (context : Context) →
      (node host bound setting expand context n).Below (node host more setting other context n)
  | .text _, _ | .comment _, _ => .refl _
  | .interpolation path _ _, context => by
    refine (below_lookup h context path).bind fun found => ?_
    rcases found with _ | v
    · exact .refl _
    · cases v with
      | null => exact .refl _
      | lambda called =>
        cases called with
        | inline id =>
          refine (Below.refl _).bind fun v => (below_settle h v).bind fun settled => ?_
          cases settled with
          | null => exact .refl _
          | _ => exact (he _ _ _).bind fun _ => .refl _
        | block id => exact .refl _
      | _ => exact (below_settleDeep h _).bind fun _ => .refl _
  | .inclusion name _ _, context => by
    simp only [node]
    cases setting.partials name with
    | none => exact .refl _
    | some source => exact he _ _ _
  | .block path inverted children raw tags _, context => by
    have hchildren := below_siblings h he children
    refine (below_lookup h context path).bind fun found =>
      (below_deciding h found).bind fun value => ?_
    cases inverted with
    | true =>
      cases hshown : Render.isShown value with
      | true => simpa [hshown] using Below.refl _
      | false => simpa [hshown] using hchildren context
    | false =>
      cases hshown : Render.isShown value with
      | false => simpa [hshown] using Below.refl _
      | true =>
        rcases value with _ | v
        · exact hchildren context
        · cases v with
          | list items =>
            refine (below_mapM (fun v => ?_) items).bind fun _ => .refl _
            exact (below_settle h v).bind fun v => hchildren _
          | map entries => exact hchildren _
          | lambda called =>
            cases called with
            | inline id => exact hchildren context
            | block id =>
              refine (Below.refl _).bind fun reply => ?_
              refine (below_answer (fun source => he source tags context) reply).bind fun v => ?_
              exact (below_settle h v).bind fun _ => .refl _
          | _ => exact hchildren context

theorem below_siblings (h : bound ≤ more)
    (he : ∀ source tags context, (expand source tags context).Below (other source tags context)) :
    (ns : List Node) → (context : Context) →
      (siblings host bound setting expand context ns).Below
        (siblings host more setting other context ns)
  | [], _ => .refl _
  | n :: ns, context =>
    (below_node h he n context).bind fun _ => (below_siblings h he ns context).bind fun _ => .refl _
end

theorem below_text (h : bound ≤ more) (setting : Setting) (ns : List Node) (context : Context) :
    (text host setting bound ns context).Below (text host setting more ns context) := by
  induction bound generalizing more ns context with
  | zero =>
    cases more with
    | zero => exact .refl _
    | succ more =>
      refine below_siblings h ?_ ns context
      exact fun _ _ _ => exhausted_below _
  | succ bound ih =>
    obtain ⟨more, rfl⟩ : ∃ n, more = n + 1 := ⟨more - 1, by omega⟩
    refine below_siblings h ?_ ns context
    exact fun _ _ context => (Below.refl _).bind fun nested => ih (by omega) nested context

/-- A render that does not reach its bound is the same under any larger one. -/
theorem below_render (h : bound ≤ more) (request : Request) (config : Config) :
    (render host bound request config).Below (render host more request config) := by
  simp only [render]
  cases request.template with
  | string source =>
    refine (Below.refl _).bind fun nodes => (below_settle h request.view).bind fun view => ?_
    exact below_text h _ nodes _
  | _ => exact .refl _

end Direct
end Stencil
