import Mathlib.Algebra.Group.Nat.Defs
import Mathlib.Data.List.Perm.Subperm
import UtilityCss.Proofs.Cache.Coherence
import UtilityCss.Proofs.Cache.Refinement

/-!
# The queue of a cache

In every run the stamps in the queue increase up to the clock, each key has one place that is current, and
the queue is hardly longer than the limit at which it is cleared (`Cache.queue_of_run`). Stale places come
from moving keys alone, so a cache that never moves a key has none (`Cache.Compact`).

A full cache that gets a new key gives up keys until there is room. `Cache.RoomMade` is that loop without a
way out for a queue that holds no current place; there always is one, since every key has its place in the
queue (`Cache.roomMade_makeRoom`).
-/

namespace UtilityCss

theorem Queue.size_lt_of_popWhere? {α : Type} {p : α → Bool} {q rest : Queue α} {a : α}
    (h : q.popWhere? p = some (a, rest)) : rest.size < q.size := by
  obtain ⟨skipped, hq, -, -⟩ := exists_of_popWhere?_eq_some h
  have hlength := congrArg List.length hq
  rw [length_toList, List.length_append, List.length_cons, length_toList] at hlength
  omega

namespace Cache

variable {α : Type} {c c' : Cache α}

/-! ## Current places -/

theorem isLive_iff {place : String × Nat} :
    c.isLive place = true ↔ ∃ slot, c.slots[place.1]? = some slot ∧ slot.stamp = place.2 := by
  unfold isLive
  cases h : c.slots[place.1]? with
  | none => simp
  | some slot => simp

theorem length_filter_isLive (h : c.Ordered) : (c.order.toList.filter c.isLive).length = c.size := by
  have hlive : c.isLive = fun place => (entryAt? c.slots place).isSome := funext (isLive_eq c)
  rw [← length_entries h, entries, List.length_filterMap_eq_countP, List.countP_eq_length_filter, hlive]

theorem size_order_le_clock (h : c.Ordered) : c.order.size ≤ c.clock + 1 := by
  have hnodup : (c.order.toList.map Prod.snd).Nodup := by
    rw [List.Nodup, List.pairwise_map]
    exact h.increasing.imp Nat.ne_of_lt
  have hsubset : c.order.toList.map Prod.snd ⊆ List.range (c.clock + 1) := by
    intro stamp hstamp
    obtain ⟨place, hplace, rfl⟩ := List.mem_map.mp hstamp
    exact List.mem_range.mpr (Nat.lt_succ_of_le (h.le_clock place hplace))
  have hlength := (List.subperm_of_subset hnodup hsubset).length_le
  rwa [List.length_map, List.length_range, Queue.length_toList] at hlength

theorem count_place (h : c.Ordered) {key : String} {slot : Slot α} (hslot : c.slots[key]? = some slot) :
    c.order.toList.count (key, slot.stamp) = 1 := by
  have hnodup : c.order.toList.Nodup := h.increasing.imp fun hlt heq => by
    rw [heq] at hlt
    exact Nat.lt_irrefl _ hlt
  rw [hnodup.count, if_pos (h.placed key slot hslot)]

/-! ## Making room -/

/-- Keys are given up, one after the other, while the cache is full. -/
inductive RoomMade : Cache α → Cache α → Prop
  | roomy {c : Cache α} (h : c.size < c.capacity) : RoomMade c c
  | evicted {c c' : Cache α} {place : String × Nat} {rest : Queue (String × Nat)}
      (hfull : c.capacity ≤ c.size) (hpop : c.order.popWhere? c.isLive = some (place, rest))
      (h : RoomMade { c with slots := c.slots.erase place.1, order := rest } c') : RoomMade c c'

theorem evict_eq {place : String × Nat} {rest : Queue (String × Nat)}
    (hpop : c.order.popWhere? c.isLive = some (place, rest)) :
    c.evict = { c with slots := c.slots.erase place.1, order := rest } := by
  rw [evict, hpop]

theorem exists_popWhere? (h : c.Ordered) (hsize : 0 < c.size) :
    ∃ place rest, c.order.popWhere? c.isLive = some (place, rest) := by
  cases hpop : c.order.popWhere? c.isLive with
  | some found => exact ⟨found.1, found.2, rfl⟩
  | none =>
    have hnil : c.order.toList.filter c.isLive = [] := by
      rw [List.filter_eq_nil_iff]
      intro place hplace
      simp [Queue.of_popWhere?_eq_none hpop place hplace]
    rw [← length_filter_isLive h, hnil] at hsize
    cases hsize

theorem size_evict (h : c.Ordered) : c.evict.size = c.size - 1 := by
  rw [← length_entries h.evict, entries_evict h, List.length_tail, length_entries h]

theorem repeat_evict_succ (n : Nat) (c : Cache α) :
    Nat.repeat evict (n + 1) c = Nat.repeat evict n c.evict := by
  induction n with
  | zero => rfl
  | succ n ih =>
    show evict (Nat.repeat evict (n + 1) c) = evict (Nat.repeat evict n c.evict)
    rw [ih]

/-- Making room never fails to find a key to give up. -/
theorem roomMade_makeRoom (h : c.Ordered) (hcapacity : c.capacity ≠ 0) : c.RoomMade c.makeRoom := by
  unfold makeRoom
  generalize hn : c.size + 1 - c.capacity = n
  induction n generalizing c with
  | zero => exact .roomy (by omega)
  | succ n ih =>
    obtain ⟨place, rest, hpop⟩ := exists_popWhere? h (by omega)
    have heq := evict_eq hpop
    have hsize := size_evict h
    have hcapacity' : c.evict.capacity = c.capacity := by rw [heq]
    have hrest := ih h.evict (by rwa [hcapacity']) (by omega)
    rw [← repeat_evict_succ] at hrest
    exact .evicted (by omega) hpop (heq ▸ hrest)

/-! ## The length of the queue -/

/-- The queue is no longer than it may get before it is cleared, unless there are more keys. -/
def Cleared (c : Cache α) : Prop := c.policy = .lru → c.order.size ≤ max c.compactionLimit c.size

/-- A queue in which keys move is one longer than cleared at most; one in which they stay has no stale
place. -/
structure Compact (c : Cache α) : Prop where
  moving : c.policy = .lru → c.order.size ≤ max c.compactionLimit c.size + 1
  staying : c.policy = .fifo → ∀ place ∈ c.order.toList, c.isLive place = true

theorem Cleared.compact (h : c.Cleared)
    (hlive : c.policy = .fifo → ∀ place ∈ c.order.toList, c.isLive place = true) : c.Compact :=
  ⟨fun hpolicy => Nat.le_succ_of_le (h hpolicy), hlive⟩

theorem Compact.size_order (h : c.Compact) (hordered : c.Ordered) (hpolicy : c.policy = .fifo) :
    c.order.size = c.size := by
  rw [← length_filter_isLive hordered, List.filter_eq_self.mpr (h.staying hpolicy), Queue.length_toList]

theorem Compact.size_order_le (h : c.Compact) (hordered : c.Ordered) :
    c.order.size ≤ max c.compactionLimit c.size + 1 := by
  cases hpolicy : c.policy with
  | lru => exact h.moving hpolicy
  | fifo =>
    rw [h.size_order hordered hpolicy]
    omega

theorem policy_tidy (c : Cache α) : c.tidy.policy = c.policy := by
  obtain ⟨order, htidy⟩ := exists_tidy_eq c
  rw [htidy]

theorem cleared_tidy (h : c.Ordered) : c.tidy.Cleared := by
  intro hpolicy
  rw [policy_tidy] at hpolicy
  unfold tidy
  split
  · show (c.order.filter c.isLive).size ≤ max c.compactionLimit c.size
    rw [← Queue.length_toList, Queue.toList_filter, length_filter_isLive h]
    exact Nat.le_max_right _ _
  · next hshort =>
    simp only [hpolicy, decide_true, Bool.true_and, decide_eq_true_eq, Nat.not_lt] at hshort
    exact hshort.trans (Nat.le_max_left _ _)

theorem Compact.tidy (h : c.Compact) (hordered : c.Ordered) : c.tidy.Compact := by
  refine (cleared_tidy hordered).compact fun hpolicy => ?_
  rw [policy_tidy] at hpolicy
  have htidy : c.tidy = c := by simp [Cache.tidy, hpolicy]
  rw [htidy]
  exact h.staying hpolicy

theorem isLive_of_evicted (h : c.Ordered) {place : String × Nat} {rest : Queue (String × Nat)}
    (hpop : c.order.popWhere? c.isLive = some (place, rest)) {later : String × Nat}
    (hlater : later ∈ rest.toList) :
    later ∈ c.order.toList ∧
      isLive { c with slots := c.slots.erase place.1, order := rest } later = c.isLive later := by
  obtain ⟨skipped, hq, -, hlive⟩ := Queue.exists_of_popWhere?_eq_some hpop
  rw [isLive_eq] at hlive
  obtain ⟨e, he⟩ := Option.isSome_iff_exists.mp hlive
  refine ⟨by simp [hq, hlater], ?_⟩
  rw [isLive_eq, isLive_eq, entryAt?_erase he ((h.of_append hq).2 later hlater)]

theorem Cleared.evicted (h : c.Cleared) (hordered : c.Ordered) {place : String × Nat}
    {rest : Queue (String × Nat)} (hpop : c.order.popWhere? c.isLive = some (place, rest)) :
    c.evict.Cleared := by
  intro hpolicy
  have hsize := size_evict hordered
  have hshorter := Queue.size_lt_of_popWhere? hpop
  rw [evict_eq hpop] at hpolicy hsize ⊢
  have hle := h hpolicy
  show rest.size ≤ max c.compactionLimit _
  omega

theorem RoomMade.keeps (h : RoomMade c c') (hordered : c.Ordered) (hcleared : c.Cleared)
    (hlive : c.policy = .fifo → ∀ place ∈ c.order.toList, c.isLive place = true) :
    c'.Cleared ∧ (c'.policy = .fifo → ∀ place ∈ c'.order.toList, c'.isLive place = true) := by
  induction h with
  | roomy => exact ⟨hcleared, hlive⟩
  | evicted _ hpop _ ih =>
    have heq := evict_eq hpop
    refine ih (heq ▸ hordered.evict) (heq ▸ hcleared.evicted hordered hpop) fun hpolicy later hlater => ?_
    obtain ⟨hmem, hsame⟩ := isLive_of_evicted hordered hpop hlater
    rw [hsame]
    exact hlive hpolicy later hmem

theorem size_le_size_place (c : Cache α) (key : String) (value : α) :
    c.size ≤ (c.place key value).size :=
  Std.HashMap.size_le_size_insert

theorem Cleared.place (h : c.Cleared) (key : String) (value : α)
    (hlive : c.policy = .fifo →
      c.peek? key = none ∧ ∀ place ∈ c.order.toList, c.isLive place = true) :
    (c.place key value).Compact where
  moving hpolicy := by
    have hle := h hpolicy
    have hsize := size_le_size_place c key value
    show c.order.size + 1 ≤ max c.compactionLimit _ + 1
    omega
  staying hpolicy := by
    obtain ⟨hnew, hlive⟩ := hlive hpolicy
    intro place hplace
    rw [isLive_iff]
    simp only [Cache.place, Queue.toList_push, List.mem_append, List.mem_singleton] at hplace ⊢
    rcases hplace with hplace | rfl
    · obtain ⟨slot, hslot, hstamp⟩ := isLive_iff.mp (hlive place hplace)
      have hne : ¬ key = place.1 := by
        rintro rfl
        simp [peek?, hslot] at hnew
      exact ⟨slot, by simp [Std.HashMap.getElem?_insert, hne, hslot], hstamp⟩
    · exact ⟨_, Std.HashMap.getElem?_insert_self, rfl⟩

theorem Compact.replace (h : c.Compact) {key : String} {slot : Slot α}
    (hslot : c.slots[key]? = some slot) (value : α) : (c.replace key slot value).Compact where
  moving hpolicy := by
    have hle := h.moving hpolicy
    have hsize : c.size ≤ (c.replace key slot value).size := Std.HashMap.size_le_size_insert
    show c.order.size ≤ max c.compactionLimit _ + 1
    omega
  staying hpolicy := by
    intro place hplace
    obtain ⟨found, hfound, hstamp⟩ := isLive_iff.mp (h.staying hpolicy place hplace)
    rw [isLive_iff]
    simp only [Cache.replace, Std.HashMap.getElem?_insert, beq_iff_eq]
    split
    · next hkey =>
      subst hkey
      obtain rfl := Option.some.inj (hslot.symm.trans hfound)
      exact ⟨_, rfl, hstamp⟩
    · exact ⟨found, hfound, hstamp⟩

theorem compact_of_empty (horder : c.order = .empty) : c.Compact where
  moving _ := by simp [horder, Queue.empty]
  staying _ := by simp [horder]

theorem Compact.count (h : c.Compact) (hits misses : Nat) :
    Compact { c with hits := hits, misses := misses } :=
  ⟨h.moving, h.staying⟩

/-! ## Requests -/

theorem Compact.get (h : c.Compact) (hordered : c.Ordered) (key : String) : (c.get key).2.Compact := by
  have htidy := h.tidy hordered
  have hcleared := cleared_tidy hordered
  unfold Cache.get
  cases hslot : c.tidy.slots[key]? with
  | none =>
    simp only [hslot]
    exact htidy.count c.tidy.hits (c.tidy.misses + 1)
  | some slot =>
    simp only [hslot]
    split
    · next hpolicy =>
      have hcounted : Cleared { c.tidy with hits := c.tidy.hits + 1 } := hcleared
      refine hcounted.place key slot.value fun hfifo => ?_
      rw [hpolicy] at hfifo
      cases hfifo
    · exact htidy.count (c.tidy.hits + 1) c.tidy.misses

theorem insert_of_new (hcapacity : c.capacity ≠ 0) {key : String} (hnew : c.peek? key = none)
    (value : α) : c.insert key value = c.tidy.makeRoom.place key value := by
  have hslot : c.tidy.slots[key]? = none := by
    rw [← peek?_tidy] at hnew
    simpa [peek?] using hnew
  simp only [insert, if_neg hcapacity, hslot]

theorem Compact.insert (h : c.Compact) (hordered : c.Ordered) (key : String) (value : α) :
    (c.insert key value).Compact := by
  have htidy := h.tidy hordered
  have hcleared := cleared_tidy hordered
  by_cases hcapacity : c.capacity = 0
  · rwa [Cache.insert, if_pos hcapacity]
  · cases hslot : c.tidy.slots[key]? with
    | none =>
      have hnew : c.tidy.peek? key = none := by rw [peek?, hslot, Option.map_none]
      have hroom := roomMade_makeRoom hordered.tidy (by rwa [capacity_tidy])
      obtain ⟨hcleared', hlive⟩ := hroom.keeps hordered.tidy hcleared htidy.staying
      rw [insert_of_new hcapacity (by rwa [peek?_tidy] at hnew)]
      refine hcleared'.place key value fun hpolicy => ⟨?_, hlive hpolicy⟩
      rw [Option.eq_none_iff_forall_ne_some]
      intro found hfound
      rw [peek?_of_makeRoom hfound] at hnew
      cases hnew
    | some slot =>
      simp only [Cache.insert, if_neg hcapacity, hslot]
      split
      · next hpolicy =>
        refine hcleared.place key value fun hfifo => ?_
        rw [hpolicy] at hfifo
        cases hfifo
      · exact htidy.replace hslot value

theorem Compact.perform (h : c.Compact) (hordered : c.Ordered) (request : CacheRequest α) :
    (c.perform request).2.Compact := by
  cases request with
  | insert key value => exact h.insert hordered key value
  | get key => exact h.get hordered key
  | peek key => exact h
  | contains key => exact h
  | clear => exact compact_of_empty rfl

theorem policy_perform (c : Cache α) (request : CacheRequest α) :
    (c.perform request).2.policy = c.policy := by
  obtain ⟨order, htidy⟩ := exists_tidy_eq c
  cases request with
  | insert key value =>
    obtain ⟨slots, rest, hroom⟩ := exists_makeRoom_eq c.tidy
    rw [htidy] at hroom
    simp only [Cache.perform, Cache.insert]
    split
    · rfl
    · split
      · split <;> simp [place, htidy]
      · simp [place, htidy, hroom]
  | get key =>
    simp only [Cache.perform, Cache.get]
    split
    · split <;> simp [place, htidy]
    · simp [htidy]
  | peek key => rfl
  | contains key => rfl
  | clear => rfl

/-! ## Runs -/

/-- What the queue of a cache is like: stamps increase up to the clock, each key has one current place, and
there are not many stale ones. -/
structure WellQueued (c : Cache α) : Prop where
  increasing : c.order.toList.Pairwise fun p q => p.2 < q.2
  placed_once : ∀ key slot, c.slots[key]? = some slot → c.order.toList.count (key, slot.stamp) = 1
  le_clock : ∀ p ∈ c.order.toList, p.2 ≤ c.clock
  short : c.order.size ≤ min (2 * c.capacity + 16) maxWord + 1
  staying : c.policy = .fifo → c.order.size = c.size

theorem Compact.wellQueued (h : c.Compact) (hsound : c.Sound) (hclock : c.clock ≤ maxWord) :
    c.WellQueued where
  increasing := hsound.ordered.increasing
  placed_once _ _ := count_place hsound.ordered
  le_clock := hsound.ordered.le_clock
  short := by
    have hsize := h.size_order_le hsound.ordered
    have hstamps := size_order_le_clock hsound.ordered
    have hfits := hsound.fits
    rw [length_entries hsound.ordered] at hfits
    unfold compactionLimit at hsize
    omega
  staying := h.size_order hsound.ordered

theorem sound_and_roll_of_run (capacity : Nat) (policy : EvictionPolicy)
    (requests : List (CacheRequest α)) :
    (serve perform (new capacity policy) requests).2.Sound ∧
      (serve perform (new capacity policy) requests).2.roll =
        (serve Roll.perform (Roll.new capacity policy) requests).2 := by
  have hsound : (new capacity policy : Cache α).Sound := sound_new capacity policy
  refine ⟨serve_keeps Sound (fun _ request h => (perform_spec h request).2.2) hsound requests, ?_⟩
  rw [← roll_new]
  exact (serve_refines Sound roll (fun _ request h => perform_spec h request) hsound requests).2

/-- **The queue of a cache stays in order.** Whatever the capacity, the policy and the requests, as long as
these can be counted by a machine word: stamps increase and none is greater than the clock, which does not
overflow; each key has one current place; and the queue is one longer at most than the limit at which it is
cleared, or as long as the cache is large if keys do not move. When a new key comes, room is made without
ever failing to find a key to give up. -/
theorem queue_of_run (capacity : Nat) (policy : EvictionPolicy) (requests : List (CacheRequest α))
    (hrequests : requests.length < 2 ^ 64) :
    let c := (serve perform (new capacity policy) requests).2
    c.capacity = capacity ∧ c.policy = policy ∧ c.clock < 2 ^ 64 ∧ c.WellQueued ∧
      (capacity ≠ 0 → ∀ key value, c.peek? key = none →
        ∃ c', c.tidy.RoomMade c' ∧ c.insert key value = c'.place key value) := by
  intro c
  obtain ⟨hsound, hcompact, hcapacity, hpolicy⟩ := serve_keeps
    (fun c : Cache α => c.Sound ∧ c.Compact ∧ c.capacity = capacity ∧ c.policy = policy)
    (fun c request h => ⟨(perform_spec h.1 request).2.2, h.2.1.perform h.1.ordered request,
      (counters_perform c request).2.2.trans h.2.2.1, (policy_perform c request).trans h.2.2.2⟩)
    ⟨sound_new capacity policy, compact_of_empty rfl, rfl, rfl⟩ requests
  have hclock := serve_le Cache.clock (fun c request => (counters_perform c request).1)
    (new capacity policy : Cache α) requests
  have hword : (serve perform (new capacity policy : Cache α) requests).2.clock ≤ maxWord := by
    have hstart : (new capacity policy : Cache α).clock = 0 := rfl
    have hmax : maxWord = 2 ^ 64 - 1 := rfl
    omega
  refine ⟨hcapacity, hpolicy, Nat.lt_of_le_pred (by decide) hword, hcompact.wellQueued hsound hword, ?_⟩
  intro hne key value hnew
  rw [← hcapacity] at hne
  exact ⟨c.tidy.makeRoom, roomMade_makeRoom hsound.ordered.tidy (by rwa [capacity_tidy]),
    insert_of_new hne hnew value⟩

/-- Two keys in a cache for two, the first of which is read again. -/
def refreshed : List (CacheRequest Nat) := [.insert "a" 1, .insert "b" 2, .get "a", .get "c"]

theorem queue_of_run_refreshed :
    refreshed.length < 2 ^ 64 ∧
      let c := (serve perform (new 2 .lru) refreshed).2
      c.WellQueued ∧ c.size = 2 ∧ c.peek? "c" = none ∧
        ∃ c', c.tidy.RoomMade c' ∧ c.insert "c" 3 = c'.place "c" 3 := by
  have hlength : refreshed.length < 2 ^ 64 := by decide
  obtain ⟨-, -, -, hqueue, hinsert⟩ := queue_of_run 2 .lru refreshed hlength
  obtain ⟨hsound, hroll⟩ := sound_and_roll_of_run 2 .lru refreshed
  have hnew : (serve perform (new 2 .lru) refreshed).2.peek? "c" = none := by
    rw [← find?_roll hsound.ordered, hroll]
    decide
  refine ⟨hlength, hqueue, ?_, hnew, hinsert (by decide) "c" 3 hnew⟩
  have hentries : (serve perform (new 2 .lru) refreshed).2.entries = [("b", 2), ("a", 1)] :=
    (congrArg Roll.entries hroll).trans (by decide)
  rw [← length_entries hsound.ordered, hentries]
  rfl

end Cache
end UtilityCss
