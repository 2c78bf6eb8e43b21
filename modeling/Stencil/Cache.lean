import Stencil.Template.Compile

/-!
# Compiled templates

A cache keeps what has been compiled, by source and pair of delimiters. Sources that do not compile
are not kept. An entry stays as it is until the cache is cleared; its serial number tells it from
every other entry the cache has ever held.
-/

namespace Stencil

structure CacheEntry where
  source : Text
  tags : Tags
  nodes : List Node
  serial : Nat
  /-- The length of the source, so that sources of different lengths need not be compared. -/
  length : Nat := source.length
  length_eq : length = source.length := by rfl

structure Cache where
  entries : List CacheEntry
  /-- How many entries have ever been made. -/
  made : Nat

namespace Cache

def empty : Cache :=
  ⟨[], 0⟩

def find? (cache : Cache) (source : Text) (tags : Tags) : Option CacheEntry :=
  let length := source.length
  cache.entries.find? fun entry =>
    entry.length = length && entry.source = source && entry.tags = tags

/-- The length decides nothing. -/
theorem find?_eq (cache : Cache) (source : Text) (tags : Tags) :
    cache.find? source tags =
      cache.entries.find? fun entry => entry.source = source && entry.tags = tags := by
  simp only [find?]
  congr 1
  funext entry
  by_cases h : entry.source = source <;> simp [h, entry.length_eq]

/-- The entry of a source, compiled now if it is not there. -/
def fetch (cache : Cache) (source : Text) (tags : Tags) : Except Error CacheEntry × Cache :=
  match cache.find? source tags with
  | some entry => (.ok entry, cache)
  | none =>
    match Template.compile source tags with
    | .error error => (.error error, cache)
    | .ok nodes =>
      let entry : CacheEntry := { source, tags, nodes, serial := cache.made }
      (.ok entry, ⟨entry :: cache.entries, cache.made + 1⟩)

theorem fetch_of_find? {cache : Cache} {source : Text} {tags : Tags} {entry : CacheEntry}
    (h : cache.find? source tags = some entry) : cache.fetch source tags = (.ok entry, cache) := by
  simp [fetch, h]

/-- What has been fetched is there. -/
theorem find?_of_fetch {cache after : Cache} {source : Text} {tags : Tags} {entry : CacheEntry}
    (h : cache.fetch source tags = (.ok entry, after)) : after.find? source tags = some entry := by
  simp only [fetch] at h
  split at h
  · rename_i found hf
    simp only [Prod.mk.injEq, Except.ok.injEq] at h
    obtain ⟨rfl, rfl⟩ := h
    exact hf
  · split at h
    · simp at h
    · simp only [Prod.mk.injEq, Except.ok.injEq] at h
      obtain ⟨rfl, rfl⟩ := h
      simp [find?_eq]

/-- What fails to compile leaves the cache as it is. -/
theorem eq_of_fetch_error {cache after : Cache} {source : Text} {tags : Tags} {error : Error}
    (h : cache.fetch source tags = (.error error, after)) : after = cache := by
  simp only [fetch] at h
  split at h
  · simp at h
  · split at h <;> simp_all

/-- Forgets every entry. Serial numbers go on. -/
def clear (cache : Cache) : Cache :=
  ⟨[], cache.made⟩

def size (cache : Cache) : Nat :=
  cache.entries.length

end Cache
end Stencil
