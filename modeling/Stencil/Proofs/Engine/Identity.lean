import Mathlib
import Stencil.Proofs.Engine.Recorded
import Stencil.Proofs.Engine.Transparency

/-!
# Identity of compiled templates

An entry of the cache is told from all others by its serial number. Numbers are given out once and go
on when the cache is cleared, so what is fetched twice is one entry as long as its key is the same and
the cache is not cleared in between, and another entry otherwise.
-/

namespace Stencil

namespace Cache

variable {cache : Cache} {source : Text} {tags : Tags} {entry : CacheEntry}

/-- Every serial number has been given out before, and none to two entries. -/
structure Numbered (cache : Cache) : Prop where
  lt_made : ∀ entry ∈ cache.entries, entry.serial < cache.made
  nodup : (cache.entries.map CacheEntry.serial).Nodup

theorem numbered_empty : empty.Numbered :=
  ⟨nofun, List.nodup_nil⟩

theorem numbered_clear (cache : Cache) : cache.clear.Numbered :=
  ⟨nofun, List.nodup_nil⟩

theorem Numbered.eq_of_serial (h : cache.Numbered) {found : CacheEntry} (he : entry ∈ cache.entries)
    (hf : found ∈ cache.entries) (hs : found.serial = entry.serial) : found = entry :=
  List.inj_on_of_nodup_map h.nodup hf he hs

/-- What a fetch does to the cache: nothing, or it adds an entry with the next number. -/
theorem fetch_cases (cache : Cache) (source : Text) (tags : Tags) :
    (cache.fetch source tags).2 = cache ∨ ∃ entry : CacheEntry, entry.serial = cache.made ∧
      (cache.fetch source tags).2 = ⟨entry :: cache.entries, cache.made + 1⟩ := by
  simp only [fetch]
  split
  · exact .inl rfl
  · split
    · exact .inl rfl
    · exact .inr ⟨_, rfl, rfl⟩

theorem Numbered.fetch (h : cache.Numbered) (source : Text) (tags : Tags) :
    (cache.fetch source tags).2.Numbered := by
  rcases cache.fetch_cases source tags with heq | ⟨entry, hserial, heq⟩ <;> rw [heq]
  · exact h
  · have hnew : cache.made ∉ cache.entries.map CacheEntry.serial := by
      intro hm
      obtain ⟨other, ho, hs⟩ := List.mem_map.1 hm
      exact absurd (h.lt_made other ho) (by omega)
    refine ⟨fun other ho => ?_, ?_⟩
    · rcases List.mem_cons.1 ho with rfl | ho
      · exact hserial ▸ Nat.lt_succ_self _
      · exact (h.lt_made other ho).trans (Nat.lt_succ_self _)
    · rw [List.map_cons, hserial]
      exact List.nodup_cons.2 ⟨hnew, h.nodup⟩

/-- Of two caches, the second comes after the first: what it holds besides is numbered later. -/
structure Follows (before after : Cache) : Prop where
  made_le : before.made ≤ after.made
  old_or_new : ∀ entry ∈ after.entries, entry ∈ before.entries ∨ before.made ≤ entry.serial

namespace Follows

variable {before middle after : Cache}

theorem refl (cache : Cache) : Follows cache cache :=
  ⟨le_rfl, fun _ => .inl⟩

theorem trans (h : Follows before middle) (h' : Follows middle after) : Follows before after where
  made_le := h.made_le.trans h'.made_le
  old_or_new entry he := by
    rcases h'.old_or_new entry he with he | hle
    · exact h.old_or_new entry he
    · exact .inr (h.made_le.trans hle)

theorem clear (cache : Cache) : Follows cache cache.clear :=
  ⟨le_rfl, nofun⟩

theorem fetch (cache : Cache) (source : Text) (tags : Tags) :
    Follows cache (cache.fetch source tags).2 := by
  rcases cache.fetch_cases source tags with heq | ⟨entry, hserial, heq⟩ <;> rw [heq]
  · exact refl cache
  · refine ⟨Nat.le_succ _, fun other ho => ?_⟩
    rcases List.mem_cons.1 ho with rfl | ho
    · exact .inr hserial.ge
    · exact .inl ho

end Follows

variable {wanted : List (Text × Tags)}

theorem Numbered.fetchAll (h : cache.Numbered) (wanted : List (Text × Tags)) :
    (cache.fetchAll wanted).Numbered := by
  induction wanted generalizing cache with
  | nil => exact h
  | cons key wanted ih => exact ih (h.fetch key.1 key.2)

theorem follows_fetchAll (wanted : List (Text × Tags)) (cache : Cache) :
    Follows cache (cache.fetchAll wanted) := by
  induction wanted generalizing cache with
  | nil => exact .refl cache
  | cons key wanted ih => exact (Follows.fetch cache key.1 key.2).trans (ih _)

/-- An entry is what its key finds, where each key is there once. -/
theorem find?_of_mem (h : cache.keys.Nodup) (he : entry ∈ cache.entries) :
    cache.find? entry.source entry.tags = some entry := by
  cases hf : cache.find? entry.source entry.tags with
  | none =>
    rw [find?_eq, List.find?_eq_none] at hf
    simpa using hf entry he
  | some found =>
    obtain ⟨hm, hs, ht⟩ := key_of_find? hf
    exact congrArg some (List.inj_on_of_nodup_map h hm he (Prod.ext hs ht))

end Cache

namespace Engine

variable {host : Host} {engine : Engine} {earlier : List (Text × Tags)}

variable (host) in
/-- Whatever is done, the cache that it leaves follows the one that it found. -/
theorem Cached.follows_act (h : engine.Cached earlier) (fuel : Nat) (action : Action) :
    engine.store.cache.Follows (engine.act host fuel action).store.cache := by
  by_cases hne : action = .clearCache
  · subst action
    exact .clear _
  · obtain ⟨wanted, hown, -⟩ := h.blind.act_under host h.sound fuel hne
    exact hown ▸ Cache.follows_fetchAll wanted _

variable (host) in
theorem Cached.numbered_act (h : engine.Cached earlier) (hn : engine.store.cache.Numbered)
    (fuel : Nat) (action : Action) : (engine.act host fuel action).store.cache.Numbered := by
  by_cases hne : action = .clearCache
  · subst action
    exact Cache.numbered_clear _
  · obtain ⟨wanted, hown, -⟩ := h.blind.act_under host h.sound fuel hne
    exact hown ▸ hn.fetchAll wanted

variable (host) in
theorem Cached.follows_run (h : engine.Cached earlier) (fuel : Nat) (actions : List Action) :
    engine.store.cache.Follows (engine.run host fuel actions).store.cache := by
  induction actions generalizing engine earlier with
  | nil => exact .refl _
  | cons action actions ih => exact (h.follows_act host fuel action).trans (ih (h.act fuel action))

variable (host) in
theorem Cached.numbered_run (h : engine.Cached earlier) (hn : engine.store.cache.Numbered)
    (fuel : Nat) (actions : List Action) :
    (engine.run host fuel actions).store.cache.Numbered := by
  induction actions generalizing engine earlier with
  | nil => exact hn
  | cons action actions ih => exact ih (h.act fuel action) (h.numbered_act host hn fuel action)

variable (host) in
/-- As long as the cache is not cleared, every entry stays. -/
theorem Cached.mem_run (h : engine.Cached earlier) {entry : CacheEntry}
    (he : entry ∈ engine.store.cache.entries) (fuel : Nat) {actions : List Action}
    (hc : .clearCache ∉ actions) : entry ∈ (engine.run host fuel actions).store.cache.entries := by
  induction actions generalizing engine earlier with
  | nil => exact he
  | cons action actions ih =>
    rw [List.mem_cons, not_or] at hc
    refine ih (h.act fuel action) ?_ hc.2
    obtain ⟨wanted, hown, -⟩ := h.blind.act_under host h.sound fuel (Ne.symm hc.1)
    obtain ⟨added, hadded⟩ := Cache.entries_fetchAll wanted engine.store.cache
    rw [hown, hadded]
    exact List.mem_append_right _ he

variable (host) in
/-- What is there after the cache has been cleared has been numbered after that. -/
theorem Cached.made_le_of_clear (h : engine.Cached earlier) (fuel : Nat) {actions : List Action}
    (hc : .clearCache ∈ actions) {found : CacheEntry}
    (hf : found ∈ (engine.run host fuel actions).store.cache.entries) :
    engine.store.cache.made ≤ found.serial := by
  induction actions generalizing engine earlier with
  | nil => cases hc
  | cons action actions ih =>
    by_cases hclear : action = .clearCache
    · subst action
      exact (((cached_clear h.blind).follows_run host fuel actions).old_or_new found hf).resolve_left
        nofun
    · have hrest := (List.mem_cons.1 hc).resolve_left (Ne.symm hclear)
      exact (h.follows_act host fuel action).made_le.trans (ih (h.act fuel action) hrest hf)

/-- What is fetched has the key that was asked for, and is in the cache from then on. -/
theorem mem_of_fetch {source : Text} {tags : Option Tags} {found : CacheEntry}
    (h : (engine.fetch source tags).1 = .ok found) :
    found ∈ (engine.fetch source tags).2.store.cache.entries ∧ found.source = source ∧
      found.tags = tags.getD engine.config.tags := by
  have hfetch : engine.store.cache.fetch source (tags.getD engine.config.tags) =
      (.ok found, (engine.fetch source tags).2.store.cache) := Prod.ext h rfl
  exact Cache.key_of_find? (Cache.find?_of_fetch hfetch)

/-- An entry of the cache, and what is fetched after more has been done: they are one entry if and
only if the keys are the same and the cache has not been cleared. -/
theorem Cached.fetch_iff (h : engine.Cached earlier) (hn : engine.store.cache.Numbered)
    {entry : CacheEntry} (he : entry ∈ engine.store.cache.entries) (fuel : Nat)
    (actions : List Action) {source : Text} {tags : Option Tags} {found : CacheEntry}
    (hf : ((engine.run host fuel actions).fetch source tags).1 = .ok found) :
    (found.serial = entry.serial ↔ entry.source = source ∧
      entry.tags = tags.getD (engine.run host fuel actions).config.tags ∧
      .clearCache ∉ actions) ∧
    (found.serial = entry.serial → found = entry) := by
  -- the fetch is one more action of the run
  have hlast : engine.run host fuel (actions ++ [.compile source tags]) =
      ((engine.run host fuel actions).fetch source tags).2 := by
    rw [run_append]
    rfl
  obtain ⟨hm, hsource, htags⟩ := mem_of_fetch hf
  rw [← hlast] at hm
  have hsame : found.serial = entry.serial → found = entry ∧ .clearCache ∉ actions := by
    intro hs
    have hc : Action.clearCache ∉ actions ++ [.compile source tags] := by
      intro hc
      have hle := h.made_le_of_clear host fuel hc hm
      exact absurd (hn.lt_made entry he) (by omega)
    refine ⟨?_, fun hc' => hc (List.mem_append_left _ hc')⟩
    exact (h.numbered_run host hn fuel _).eq_of_serial (h.mem_run host he fuel hc) hm hs
  refine ⟨⟨fun hs => ?_, ?_⟩, fun hs => (hsame hs).1⟩
  · obtain ⟨rfl, hc⟩ := hsame hs
    exact ⟨hsource, htags, hc⟩
  · rintro ⟨rfl, hkey, hc⟩
    have hcached : (engine.run host fuel actions).Cached _ := h.run fuel actions
    have hthere := Cache.find?_of_mem hcached.nodup (h.mem_run host he fuel hc)
    simp only [fetch, ← hkey, Cache.fetch_of_find? hthere, Except.ok.injEq] at hf
    exact hf ▸ rfl

/-- In every run on an engine, two sources that compile are one template if and only if they are
equal, so are the pairs in force, and the cache is not cleared in between. So it is with every
template that is in the cache at some time, whoever had it compiled, and one that is compiled later:
what a render compiles, its partials and what its lambdas return included, is in the cache then. -/
theorem run_identity (host : Host) (fuel : Nat) (config : Config) (front middle : List Action) :
    let before := (new config).run host fuel front
    (∀ source tags source' tags' first second,
      let after := (before.act host fuel (.compile source tags)).run host fuel middle
      (before.fetch source tags).1 = .ok first → (after.fetch source' tags').1 = .ok second →
      (second.serial = first.serial ↔ source = source' ∧
        tags.getD before.config.tags = tags'.getD after.config.tags ∧ .clearCache ∉ middle) ∧
      (second.serial = first.serial → second = first)) ∧
    (∀ entry ∈ before.store.cache.entries, ∀ source tags found,
      let after := before.run host fuel middle
      (after.fetch source tags).1 = .ok found →
      (found.serial = entry.serial ↔ entry.source = source ∧
        entry.tags = tags.getD after.config.tags ∧ .clearCache ∉ middle) ∧
      (found.serial = entry.serial → found = entry)) ∧
    ∀ action ≠ .clearCache, ∃ told,
      journal host fuel config (front ++ [action]) = journal host fuel config front ++ told ∧
      ∀ part source tags nodes, (part, .compiles source tags) ∈ told →
        Template.compile source tags = .ok nodes →
        (before.act host fuel action).store.cache.Has source tags := by
  intro before
  have hcached : before.Cached _ := (cached_new config).run fuel front
  have hnumbered : before.store.cache.Numbered :=
    (cached_new config).numbered_run host Cache.numbered_empty fuel front
  refine ⟨?_, fun entry he source tags found => hcached.fetch_iff hnumbered he fuel middle, ?_⟩
  · intro source tags source' tags' first second after hfirst hsecond
    obtain ⟨hm, rfl, htags⟩ := mem_of_fetch hfirst
    rw [← htags]
    exact (hcached.act fuel (.compile first.source tags)).fetch_iff
      (hcached.numbered_act host hnumbered fuel _) hm fuel middle hsecond
  · intro action hne
    obtain ⟨told, hjournal, hcache⟩ := cache_act host fuel config front hne
    rw [run_append] at hcache
    refine ⟨told, hjournal, fun part source tags nodes hm hc => ?_⟩
    rw [show (before.act host fuel action).store.cache = _ from hcache, hcached.sound.has_fetchAll]
    exact .inr ⟨Journal.mem_compiled.2 ⟨part, hm⟩, nodes, hc⟩

/-- A render that includes a single partial. -/
def onePartial : Request where
  template := .string "{{>p}}".toList
  view := .null
  partials := .ofList [(['p'], ['a'])]
  tags := none
  escape := none

/-- The partial of a render and the same source compiled later are one template; it is one with what
is compiled after it, unless the cache has been cleared. -/
theorem run_identity_onePartial :
    let before := (new default).run oneFails 3 [.start onePartial]
    let between := before.act oneFails 3 (.compile ['a'] none)
    let other := between.run oneFails 3 [.setTags ⟨['<'], ['>']⟩]
    let cleared := between.run oneFails 3 [.clearCache]
    ∃ entry ∈ before.store.cache.entries, ∃ first second third,
      (before.fetch ['a'] none).1 = .ok first ∧ (other.fetch ['a'] (some default)).1 = .ok second ∧
      (cleared.fetch ['a'] none).1 = .ok third ∧
      first = entry ∧ second = first ∧ third.serial ≠ first.serial := by
  intro before between other cleared
  have exists_of_isSome : ∀ {fetched : Except Error CacheEntry}, fetched.toOption.isSome = true →
      ∃ entry, fetched = .ok entry := by
    rintro (_ | entry) h
    · cases h
    · exact ⟨entry, rfl⟩
  obtain ⟨told, hjournal, hhas⟩ :=
    (run_identity oneFails 3 default [] []).2.2 (.start onePartial) nofun
  have htold : told = [([0], .compiles "{{>p}}".toList default), ([0], .joins 1),
      ([0, 0], .compiles ['a'] default), ([0, 0], .joins 1)] :=
    hjournal.symm.trans (by cbv)
  obtain ⟨entry, he, hsource, htags⟩ : before.store.cache.Has ['a'] default :=
    hhas [0, 0] _ _ [.text ['a']] (by simp [htold]) (by cbv)
  obtain ⟨first, hfirst⟩ : ∃ first, (before.fetch ['a'] none).1 = .ok first :=
    exists_of_isSome (by decide +kernel)
  obtain ⟨second, hsecond⟩ : ∃ second, (other.fetch ['a'] (some default)).1 = .ok second :=
    exists_of_isSome (by decide +kernel)
  obtain ⟨third, hthird⟩ : ∃ third, (cleared.fetch ['a'] none).1 = .ok third :=
    exists_of_isSome (by decide +kernel)
  refine ⟨entry, he, first, second, third, hfirst, hsecond, hthird, ?_, ?_, ?_⟩
  · obtain ⟨hiff, heq⟩ :=
      (run_identity oneFails 3 default [.start onePartial] []).2.1 entry he _ _ first hfirst
    exact heq (hiff.2 ⟨hsource, htags, by simp⟩)
  · obtain ⟨hiff, heq⟩ := (run_identity oneFails 3 default [.start onePartial]
      [.setTags ⟨['<'], ['>']⟩]).1 _ _ _ _ first second hfirst hsecond
    exact heq (hiff.2 ⟨rfl, rfl, by simp⟩)
  · obtain ⟨hiff, -⟩ := (run_identity oneFails 3 default [.start onePartial]
      [.clearCache]).1 _ _ _ _ first third hfirst hthird
    exact fun hs => (hiff.1 hs).2.2 (List.mem_singleton_self _)

end Engine
end Stencil
