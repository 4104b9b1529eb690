import Mathlib.Data.List.Basic
import Mathlib.Data.List.TakeWhile
import UtilityCss.Cache.Basic

/-!
# The entries of a cache in the order in which they go

`Cache.entries` lists the keys of a cache with their values, the next to go first: it passes over the
stale places of the queue. Each operation does to this list what its description says
(`entries_tidy`, `entries_place`, `entries_evict`, `entries_makeRoom`).

What makes the list sound is `Cache.Ordered`: the stamps in the queue increase and none of them is
greater than the clock, and the current place of every key is in the queue. Increasing stamps leave a
key with one current place, so the list holds every key once (`nodup_keys_entries`), and a stamp beyond
the clock makes all former places of a key stale.
-/

namespace UtilityCss

namespace Queue

variable {α : Type} {p : α → Bool} {q rest : Queue α} {a : α}

theorem exists_of_popWhere?_eq_some (h : q.popWhere? p = some (a, rest)) :
    ∃ skipped, q.toList = skipped ++ a :: rest.toList ∧ (∀ b ∈ skipped, p b = false) ∧ p a = true := by
  have hview := popWhere?_map_toList p q
  rw [h] at hview
  cases hdrop : q.toList.dropWhile (fun b => !p b) with
  | nil => simp [hdrop] at hview
  | cons b l =>
    obtain ⟨rfl, rfl⟩ : a = b ∧ rest.toList = l := by simpa [hdrop] using hview
    have hhead := List.head?_dropWhile_not (fun b => !p b) q.toList
    refine ⟨q.toList.takeWhile (fun b => !p b), ?_, ?_, by simpa [hdrop] using hhead⟩
    · rw [← hdrop, List.takeWhile_append_dropWhile]
    · intro b hb
      simpa using List.mem_takeWhile_imp hb

theorem of_popWhere?_eq_none (h : q.popWhere? p = none) : ∀ a ∈ q.toList, p a = false := by
  have hview := popWhere?_map_toList p q
  rw [h] at hview
  cases hdrop : q.toList.dropWhile (fun b => !p b) with
  | nil => simpa using List.dropWhile_eq_nil_iff.mp hdrop
  | cons b l => simp [hdrop] at hview

end Queue

namespace Cache

variable {α : Type} {c : Cache α}

/-- The entry whose current place a stamped key is. -/
def entryAt? (slots : Std.HashMap String (Slot α)) (place : String × Nat) : Option (String × α) :=
  match slots[place.1]? with
  | some slot => if slot.stamp = place.2 then some (place.1, slot.value) else none
  | none => none

/-- The keys with their values, the next to go first. -/
def entries (c : Cache α) : List (String × α) := c.order.toList.filterMap (entryAt? c.slots)

/-- The queue is in order: stamps increase up to the clock, and every key has its place. -/
structure Ordered (c : Cache α) : Prop where
  increasing : c.order.toList.Pairwise fun p q => p.2 < q.2
  le_clock : ∀ p ∈ c.order.toList, p.2 ≤ c.clock
  placed : ∀ key slot, c.slots[key]? = some slot → (key, slot.stamp) ∈ c.order.toList

/-! ## Places and entries -/

theorem entryAt?_eq_some_iff {slots : Std.HashMap String (Slot α)} {place : String × Nat}
    {e : String × α} :
    entryAt? slots place = some e ↔
      place.1 = e.1 ∧ ∃ slot, slots[place.1]? = some slot ∧ slot.stamp = place.2 ∧
        slot.value = e.2 := by
  unfold entryAt?
  obtain ⟨key, value⟩ := e
  cases h : slots[place.1]? with
  | none => simp
  | some slot =>
    by_cases hstamp : slot.stamp = place.2
    · simp [hstamp]
    · simp [hstamp]

theorem isLive_eq (c : Cache α) (place : String × Nat) :
    c.isLive place = (entryAt? c.slots place).isSome := by
  unfold isLive entryAt?
  cases h : c.slots[place.1]? with
  | none => rfl
  | some slot =>
    by_cases hstamp : slot.stamp = place.2
    · simp [hstamp]
    · simp [hstamp]

theorem mem_entries (h : c.Ordered) {key : String} {value : α} :
    (key, value) ∈ c.entries ↔ c.peek? key = some value := by
  rw [entries, List.mem_filterMap]
  constructor
  · rintro ⟨place, -, hplace⟩
    obtain ⟨hkey, slot, hslot, -, hvalue⟩ := entryAt?_eq_some_iff.mp hplace
    simp only at hkey hvalue
    rw [peek?, ← hkey, hslot, Option.map_some, hvalue]
  · intro hpeek
    obtain ⟨slot, hslot, hvalue⟩ := Option.map_eq_some_iff.mp hpeek
    exact ⟨_, h.placed key slot hslot, entryAt?_eq_some_iff.mpr ⟨rfl, slot, hslot, rfl, hvalue⟩⟩

theorem pairwise_ne_of_increasing {slots : Std.HashMap String (Slot α)} {places : List (String × Nat)}
    (h : places.Pairwise fun p q => p.2 < q.2) :
    (places.filterMap (entryAt? slots)).Pairwise fun e f => e.1 ≠ f.1 := by
  rw [List.pairwise_filterMap]
  refine h.imp ?_
  intro p q hlt e he f hf heq
  obtain ⟨hpe, slot, hslot, hstamp, -⟩ := entryAt?_eq_some_iff.mp he
  obtain ⟨hqf, slot', hslot', hstamp', -⟩ := entryAt?_eq_some_iff.mp hf
  rw [hpe, heq, ← hqf, hslot'] at hslot
  obtain rfl := Option.some.inj hslot
  omega

theorem nodup_keys_entries (h : c.Ordered) : (c.entries.map Prod.fst).Nodup := by
  rw [List.Nodup, List.pairwise_map]
  exact pairwise_ne_of_increasing h.increasing

theorem mem_keys_entries (h : c.Ordered) {key : String} :
    key ∈ c.entries.map Prod.fst ↔ c.contains key = true := by
  rw [contains, Std.HashMap.contains_eq_isSome_getElem?]
  constructor
  · intro hkey
    obtain ⟨⟨_, value⟩, he, rfl⟩ := List.mem_map.mp hkey
    have hpeek := (mem_entries h).mp he
    obtain ⟨slot, hslot, -⟩ := Option.map_eq_some_iff.mp hpeek
    simp [hslot]
  · intro hsome
    obtain ⟨slot, hslot⟩ := Option.isSome_iff_exists.mp hsome
    have hpeek : c.peek? key = some slot.value := by rw [peek?, hslot, Option.map_some]
    exact List.mem_map.mpr ⟨(key, slot.value), (mem_entries h).mpr hpeek, rfl⟩

theorem length_entries (h : c.Ordered) : c.entries.length = c.size := by
  have hperm : (c.entries.map Prod.fst).Perm c.slots.keys := by
    rw [List.perm_ext_iff_of_nodup (nodup_keys_entries h) Std.HashMap.nodup_keys]
    intro key
    rw [mem_keys_entries h, Std.HashMap.mem_keys, contains, Std.HashMap.contains_iff_mem]
  have hlength := hperm.length_eq
  rwa [List.length_map, Std.HashMap.length_keys] at hlength

/-! ## New and empty caches -/

theorem ordered_of_empty (hslots : c.slots = ∅) (horder : c.order = .empty) : c.Ordered where
  increasing := by simp [horder]
  le_clock := by simp [horder]
  placed := by simp [hslots]

theorem entries_of_empty (horder : c.order = .empty) : c.entries = [] := by
  simp [entries, horder]

theorem Ordered.count (h : c.Ordered) (hits misses : Nat) :
    Ordered { c with hits := hits, misses := misses } :=
  ⟨h.increasing, h.le_clock, h.placed⟩

/-! ## Clearing stale places away -/

theorem entries_tidy (c : Cache α) : c.tidy.entries = c.entries := by
  unfold tidy
  split
  · simp only [entries, Queue.toList_filter, List.filterMap_filter]
    refine List.filterMap_congr fun place _ => ?_
    rw [isLive_eq]
    cases h : entryAt? c.slots place <;> simp
  · rfl

theorem Ordered.tidy (h : c.Ordered) : c.tidy.Ordered := by
  unfold Cache.tidy
  split
  · refine ⟨?_, ?_, ?_⟩
    · rw [Queue.toList_filter]
      exact h.increasing.filter _
    · intro p hp
      rw [Queue.toList_filter] at hp
      exact h.le_clock p (List.mem_of_mem_filter hp)
    · intro key slot hslot
      rw [Queue.toList_filter]
      refine List.mem_filter.mpr ⟨h.placed key slot hslot, ?_⟩
      have hslot' : c.slots[key]? = some slot := hslot
      simp [isLive, hslot']
  · exact h

/-! ## Placing a key at the end -/

/-- The former place of a key goes stale, if there is one, and the others stay. -/
theorem entries_place (h : c.Ordered) (key : String) (value : α) :
    (c.place key value).entries = c.entries.filter (·.1 ≠ key) ++ [(key, value)] := by
  have hnew : entryAt? (c.slots.insert key ⟨value, c.clock + 1⟩) (key, c.clock + 1) =
      some (key, value) := by
    simp [entryAt?]
  have hold : c.order.toList.filterMap (entryAt? (c.slots.insert key ⟨value, c.clock + 1⟩)) =
      c.entries.filter (·.1 ≠ key) := by
    rw [entries, List.filter_filterMap]
    refine List.filterMap_congr fun place hplace => ?_
    have hle := h.le_clock place hplace
    unfold entryAt?
    rw [Std.HashMap.getElem?_insert]
    by_cases hkey : key = place.1
    · have hstamp : ¬ c.clock + 1 = place.2 := by omega
      cases hslot : c.slots[place.1]? with
      | none => simp [hkey, hstamp]
      | some slot => by_cases hs : slot.stamp = place.2 <;> simp [hkey, hstamp, hs, Option.filter]
    · have hkey' : ¬ place.1 = key := fun h => hkey h.symm
      cases hslot : c.slots[place.1]? with
      | none => simp [hkey]
      | some slot => by_cases hs : slot.stamp = place.2 <;> simp [hkey, hkey', hs, Option.filter]
  simp only [entries, place, Queue.toList_push, List.filterMap_append] at hold ⊢
  rw [hold]
  simp [hnew]

theorem Ordered.place (h : c.Ordered) (key : String) (value : α) : (c.place key value).Ordered where
  increasing := by
    simp only [Cache.place, Queue.toList_push, List.pairwise_append, List.pairwise_singleton]
    refine ⟨h.increasing, trivial, ?_⟩
    intro p hp q hq
    have hle := h.le_clock p hp
    obtain rfl := List.mem_singleton.mp hq
    exact Nat.lt_succ_of_le hle
  le_clock := by
    intro p hp
    simp only [Cache.place, Queue.toList_push, List.mem_append, List.mem_singleton] at hp ⊢
    obtain hp | rfl := hp
    · exact Nat.le_succ_of_le (h.le_clock p hp)
    · exact Nat.le_refl _
  placed := by
    intro other slot hslot
    simp only [Cache.place, Std.HashMap.getElem?_insert, beq_iff_eq] at hslot
    simp only [Cache.place, Queue.toList_push, List.mem_append, List.mem_singleton]
    split at hslot
    · next hkey =>
      obtain rfl := Option.some.inj hslot
      exact .inr (by rw [hkey])
    · exact .inl (h.placed other slot hslot)

/-! ## Replacing a value in its place -/

/-- The cache with another value under a key that stays in its place. -/
def replace (c : Cache α) (key : String) (slot : Slot α) (value : α) : Cache α :=
  { c with slots := c.slots.insert key { slot with value := value } }

theorem entries_replace {key : String} {slot : Slot α} (hslot : c.slots[key]? = some slot)
    (value : α) :
    (c.replace key slot value).entries =
      c.entries.map fun e => if e.1 = key then (key, value) else e := by
  simp only [entries, replace, List.map_filterMap]
  refine List.filterMap_congr fun place _ => ?_
  unfold entryAt?
  rw [Std.HashMap.getElem?_insert]
  by_cases hkey : key = place.1
  · subst hkey
    by_cases hs : slot.stamp = place.2 <;> simp [hslot, hs]
  · have hkey' : ¬ place.1 = key := fun h => hkey h.symm
    cases hother : c.slots[place.1]? with
    | none => simp [hkey]
    | some other => by_cases hs : other.stamp = place.2 <;> simp [hkey, hkey', hs]

theorem Ordered.replace (h : c.Ordered) {key : String} {slot : Slot α}
    (hslot : c.slots[key]? = some slot) (value : α) : (c.replace key slot value).Ordered where
  increasing := h.increasing
  le_clock := h.le_clock
  placed := by
    intro other found hfound
    simp only [Cache.replace, Std.HashMap.getElem?_insert, beq_iff_eq] at hfound
    split at hfound
    · next hkey =>
      subst hkey
      obtain rfl := Option.some.inj hfound
      exact h.placed key slot hslot
    · exact h.placed other found hfound

/-! ## Giving up keys -/

theorem entryAt?_of_isLive_eq_false {place : String × Nat} (h : c.isLive place = false) :
    entryAt? c.slots place = none := by
  rw [isLive_eq] at h
  simpa using h

theorem entryAt?_erase {slots : Std.HashMap String (Slot α)} {place later : String × Nat}
    {e : String × α} (he : entryAt? slots place = some e) (hlt : place.2 < later.2) :
    entryAt? (slots.erase place.1) later = entryAt? slots later := by
  obtain ⟨-, slot, hslot, hstamp, -⟩ := entryAt?_eq_some_iff.mp he
  unfold entryAt?
  rw [Std.HashMap.getElem?_erase]
  by_cases hkey : place.1 = later.1
  · have hstale : ¬ slot.stamp = later.2 := by omega
    rw [hkey] at hslot
    simp [hkey, hslot, hstale]
  · simp [hkey]

theorem Ordered.of_append (h : c.Ordered) {skipped later : List (String × Nat)}
    {place : String × Nat} (hq : c.order.toList = skipped ++ place :: later) :
    (later.Pairwise fun p q => p.2 < q.2) ∧ ∀ q ∈ later, place.2 < q.2 := by
  have hincreasing := h.increasing
  rw [hq, List.pairwise_append, List.pairwise_cons] at hincreasing
  exact ⟨hincreasing.2.1.2, hincreasing.2.1.1⟩

/-- The first entry goes. -/
theorem entries_evict (h : c.Ordered) : c.evict.entries = c.entries.tail := by
  unfold evict
  cases hpop : c.order.popWhere? c.isLive with
  | none =>
    have hstale : c.entries = [] := by
      rw [entries, List.filterMap_eq_nil_iff]
      exact fun place hplace => entryAt?_of_isLive_eq_false (Queue.of_popWhere?_eq_none hpop place hplace)
    rw [hstale]
    exact entries_of_empty rfl
  | some found =>
    obtain ⟨place, rest⟩ := found
    obtain ⟨skipped, hq, hskipped, hlive⟩ := Queue.exists_of_popWhere?_eq_some hpop
    rw [isLive_eq] at hlive
    obtain ⟨e, he⟩ := Option.isSome_iff_exists.mp hlive
    have hnone : skipped.filterMap (entryAt? c.slots) = [] :=
      List.filterMap_eq_nil_iff.mpr fun b hb => entryAt?_of_isLive_eq_false (hskipped b hb)
    have hentries : c.entries = e :: rest.toList.filterMap (entryAt? c.slots) := by
      rw [entries, hq, List.filterMap_append, hnone, List.nil_append, List.filterMap_cons_some he]
    rw [hentries, List.tail_cons]
    exact List.filterMap_congr fun later hlater => entryAt?_erase he ((h.of_append hq).2 later hlater)

theorem Ordered.evict (h : c.Ordered) : c.evict.Ordered := by
  unfold Cache.evict
  cases hpop : c.order.popWhere? c.isLive with
  | none =>
    refine ⟨by simp, by simp, ?_⟩
    intro key slot hslot
    -- a key would have a live place in the queue
    have hplaced := h.placed key slot hslot
    have hstale := Queue.of_popWhere?_eq_none hpop _ hplaced
    have hslot' : c.slots[key]? = some slot := hslot
    simp [isLive, hslot'] at hstale
  | some found =>
    obtain ⟨place, rest⟩ := found
    obtain ⟨skipped, hq, hskipped, -⟩ := Queue.exists_of_popWhere?_eq_some hpop
    refine ⟨(h.of_append hq).1, ?_, ?_⟩
    · intro p hp
      exact h.le_clock p (by rw [hq]; simp [show p ∈ rest.toList from hp])
    · intro key slot hslot
      simp only [Std.HashMap.getElem?_erase] at hslot
      split at hslot
      · simp at hslot
      · next hkey =>
        have hplaced := h.placed key slot hslot
        rw [hq, List.mem_append, List.mem_cons] at hplaced
        obtain hmem | heq | hmem := hplaced
        · have hstale := hskipped _ hmem
          simp [isLive, hslot] at hstale
        · simp [← heq] at hkey
        · exact hmem

theorem entries_makeRoom (h : c.Ordered) :
    c.makeRoom.entries = c.entries.drop (c.size + 1 - c.capacity) ∧ c.makeRoom.Ordered := by
  unfold makeRoom
  generalize c.size + 1 - c.capacity = n
  induction n with
  | zero => exact ⟨by simp [Nat.repeat], h⟩
  | succ n ih =>
    obtain ⟨hentries, hordered⟩ := ih
    exact ⟨by rw [Nat.repeat, entries_evict hordered, hentries, List.tail_drop], hordered.evict⟩

end Cache
end UtilityCss
