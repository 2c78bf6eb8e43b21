import Stencil.Cache

/-!
# Soundness of the cache

A cache is sound when every entry holds the nodes of its source under its pair. A sound cache
answers as a compilation would, and stays sound.
-/

namespace Stencil
namespace Cache

/-- Every entry holds what compiling its source under its pair gives. -/
def Sound (cache : Cache) : Prop :=
  ∀ entry ∈ cache.entries, Template.compile entry.source entry.tags = .ok entry.nodes

theorem sound_empty : empty.Sound := by
  intro entry h
  cases h

theorem sound_clear (cache : Cache) : cache.clear.Sound := by
  intro entry h
  cases h

variable {cache : Cache} {source : Text} {tags : Tags}

theorem key_of_find? {entry : CacheEntry} (h : cache.find? source tags = some entry) :
    entry ∈ cache.entries ∧ entry.source = source ∧ entry.tags = tags := by
  rw [find?_eq] at h
  have hk := List.find?_some h
  simp only [Bool.and_eq_true, decide_eq_true_eq] at hk
  exact ⟨List.mem_of_find?_eq_some h, hk⟩

/-- Whether a template was there or not, the answer is that of the compilation. -/
theorem Sound.map_nodes_fetch (h : cache.Sound) (source : Text) (tags : Tags) :
    (cache.fetch source tags).1.map CacheEntry.nodes = Template.compile source tags := by
  simp only [fetch]
  split
  · rename_i entry hf
    obtain ⟨hm, rfl, rfl⟩ := key_of_find? hf
    exact (h entry hm).symm
  · split
    · rename_i error he
      simp [Except.map, he]
    · rename_i nodes hn
      simp [Except.map, hn]

theorem Sound.fetch (h : cache.Sound) (source : Text) (tags : Tags) :
    (cache.fetch source tags).2.Sound := by
  simp only [Cache.fetch]
  split
  · exact h
  · split
    · exact h
    · rename_i nodes hn
      intro entry he
      rcases List.mem_cons.1 he with rfl | he
      · exact hn
      · exact h entry he

/-- Whether a cache has an entry of this key. -/
def Has (cache : Cache) (source : Text) (tags : Tags) : Prop :=
  ∃ entry ∈ cache.entries, entry.source = source ∧ entry.tags = tags

theorem find?_of_not_has (h : ¬ cache.Has source tags) : cache.find? source tags = none := by
  cases hf : cache.find? source tags with
  | none => rfl
  | some entry => exact absurd ⟨entry, key_of_find? hf⟩ h

/-- A source that compiles is fetched by its key. -/
theorem has_fetch {nodes : List Node} (hc : Template.compile source tags = .ok nodes)
    (other : Text) (pair : Tags) :
    (cache.fetch source tags).2.Has other pair ↔
      cache.Has other pair ∨ other = source ∧ pair = tags := by
  cases hf : cache.find? source tags with
  | some entry =>
    obtain ⟨hm, hkey⟩ := key_of_find? hf
    rw [fetch_of_find? hf, iff_self_or]
    rintro ⟨rfl, rfl⟩
    exact ⟨entry, hm, hkey⟩
  | none => simp [fetch, hf, hc, Has, or_comm, eq_comm]

/-- A sound cache has no source that does not compile. -/
theorem Sound.fetch_of_error (h : cache.Sound) {error : Error}
    (hc : Template.compile source tags = .error error) :
    (cache.fetch source tags).2 = cache := by
  have hn : ¬ cache.Has source tags := by
    rintro ⟨entry, hm, rfl, rfl⟩
    have he := (h entry hm).symm.trans hc
    cases he
  simp [Cache.fetch, find?_of_not_has hn, hc]

/-- The keys of the entries, the last one first. -/
def keys (cache : Cache) : List (Text × Tags) :=
  cache.entries.map fun entry => (entry.source, entry.tags)

theorem mem_keys : (source, tags) ∈ cache.keys ↔ cache.Has source tags := by
  simp [keys, Has]

/-- No key comes in twice. -/
theorem nodup_keys_fetch (h : cache.keys.Nodup) (source : Text) (tags : Tags) :
    (cache.fetch source tags).2.keys.Nodup := by
  simp only [Cache.fetch]
  split
  · exact h
  · rename_i hf
    split
    · exact h
    · refine List.nodup_cons.2 ⟨fun hm => ?_, h⟩
      obtain ⟨entry, he, rfl, rfl⟩ := mem_keys.1 hm
      rw [find?_eq, List.find?_eq_none] at hf
      simpa using hf entry he

/-- An entry that has not been there is the one that has been fetched. -/
theorem mem_entries_fetch {entry : CacheEntry} (h : entry ∈ (cache.fetch source tags).2.entries) :
    entry ∈ cache.entries ∨ entry.source = source ∧ entry.tags = tags := by
  simp only [Cache.fetch] at h
  split at h
  · exact .inl h
  · split at h
    · exact .inl h
    · rcases List.mem_cons.1 h with rfl | h
      · exact .inr ⟨rfl, rfl⟩
      · exact .inl h

theorem entries_fetch (cache : Cache) (source : Text) (tags : Tags) :
    ∃ added, (cache.fetch source tags).2.entries = added ++ cache.entries := by
  simp only [Cache.fetch]
  split
  · exact ⟨[], rfl⟩
  · split
    · exact ⟨[], rfl⟩
    · exact ⟨[_], rfl⟩

/-- Fetches the templates of these keys, one after the other. -/
def fetchAll (keys : List (Text × Tags)) (cache : Cache) : Cache :=
  keys.foldl (fun cache key => (cache.fetch key.1 key.2).2) cache

variable {wanted : List (Text × Tags)}

theorem fetchAll_cons (source : Text) (tags : Tags) (wanted : List (Text × Tags)) (cache : Cache) :
    cache.fetchAll ((source, tags) :: wanted) = (cache.fetch source tags).2.fetchAll wanted := rfl

theorem fetchAll_append (wanted more : List (Text × Tags)) (cache : Cache) :
    cache.fetchAll (wanted ++ more) = (cache.fetchAll wanted).fetchAll more :=
  List.foldl_append

theorem Sound.fetchAll (h : cache.Sound) (wanted : List (Text × Tags)) :
    (cache.fetchAll wanted).Sound := by
  induction wanted generalizing cache with
  | nil => exact h
  | cons key wanted ih => exact ih (h.fetch key.1 key.2)

theorem nodup_keys_fetchAll (h : cache.keys.Nodup) (wanted : List (Text × Tags)) :
    (cache.fetchAll wanted).keys.Nodup := by
  induction wanted generalizing cache with
  | nil => exact h
  | cons key wanted ih => exact ih (nodup_keys_fetch h key.1 key.2)

/-- Entries are added in front, and all others stay. -/
theorem entries_fetchAll (wanted : List (Text × Tags)) (cache : Cache) :
    ∃ added, (cache.fetchAll wanted).entries = added ++ cache.entries := by
  induction wanted generalizing cache with
  | nil => exact ⟨[], rfl⟩
  | cons key wanted ih =>
    obtain ⟨first, hfirst⟩ := cache.entries_fetch key.1 key.2
    obtain ⟨more, hmore⟩ := ih (cache.fetch key.1 key.2).2
    exact ⟨more ++ first, by rw [List.append_assoc, ← hfirst]; exact hmore⟩

/-- What is wanted and compiles is there. -/
theorem Sound.has_fetchAll (h : cache.Sound) :
    (cache.fetchAll wanted).Has source tags ↔ cache.Has source tags ∨
      (source, tags) ∈ wanted ∧ ∃ nodes, Template.compile source tags = .ok nodes := by
  induction wanted generalizing cache with
  | nil => simp [Cache.fetchAll]
  | cons key wanted ih =>
    obtain ⟨other, pair⟩ := key
    rw [fetchAll_cons, ih (h.fetch other pair)]
    cases hc : Template.compile other pair with
    | ok nodes =>
      rw [has_fetch hc, List.mem_cons, Prod.mk.injEq]
      constructor
      · rintro ((hh | ⟨rfl, rfl⟩) | ⟨hw, hn⟩)
        · exact .inl hh
        · exact .inr ⟨.inl ⟨rfl, rfl⟩, nodes, hc⟩
        · exact .inr ⟨.inr hw, hn⟩
      · rintro (hh | ⟨⟨rfl, rfl⟩ | hw, hn⟩)
        · exact .inl (.inl hh)
        · exact .inl (.inr ⟨rfl, rfl⟩)
        · exact .inr ⟨hw, hn⟩
    | error error =>
      rw [h.fetch_of_error hc, List.mem_cons, Prod.mk.injEq]
      constructor
      · exact Or.imp_right fun ⟨hw, hn⟩ => ⟨.inr hw, hn⟩
      · rintro (hh | ⟨⟨rfl, rfl⟩ | hw, nodes, hn⟩)
        · exact .inl hh
        · cases hc.symm.trans hn
        · exact .inr ⟨hw, nodes, hn⟩

end Cache
end Stencil
