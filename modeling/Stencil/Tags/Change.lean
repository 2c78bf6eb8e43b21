import Stencil.Error

/-!
# Making and changing a pair

A pair is made from two given texts, which are checked, or read from the body of a tag that changes
the delimiters in effect. A pair that is read is valid by its form alone.
-/

namespace Stencil
namespace Tags

/-- Makes a pair of two texts, if both can delimit a tag. -/
def make (opening closing : Text) : Except Error Tags :=
  let tags : Tags := ⟨opening, closing⟩
  if tags.Valid then .ok tags else .error (.malformedAt [] 0 (.invalidTags tags))

/-- What stands between the equals signs of a change. -/
def changeNames? (body : Text) : Option Text :=
  match body.trim with
  | '=' :: t => if t.getLast? = some '=' then some t.dropLast else none
  | _ => none

/-- Reads the body of a tag that changes the pair: two words between equals signs. -/
def ofChange (body : Text) : Except Fault Tags :=
  match changeNames? body with
  | none => .error .invalidChange
  | some names =>
    match names.words with
    | [opening, closing] => .ok ⟨opening, closing⟩
    | _ => .error (.invalidChangeTags names.trim)

theorem isSide_of_mem_words {t word : Text} (h : word ∈ t.words) : IsSide word :=
  ⟨Text.ne_nil_of_mem_words h, Text.isBlank_of_mem_words h⟩

/-- A pair that is read needs no check. -/
theorem valid_of_ofChange {body : Text} {tags : Tags} (h : ofChange body = .ok tags) :
    tags.Valid := by
  simp only [ofChange] at h
  split at h
  · cases h
  · split at h
    · rename_i opening closing hw
      cases h
      exact ⟨isSide_of_mem_words (hw ▸ List.mem_cons_self ..),
        isSide_of_mem_words (hw ▸ List.mem_cons_of_mem _ (List.mem_cons_self ..))⟩
    · cases h

end Tags
end Stencil
