import UtilityCss.Proofs.Cache.Entries
import UtilityCss.Proofs.Run

/-!
# A cache is a list of entries

A cache cannot be told from a list of keys with values that is as long as its capacity at most
(`Cache.run_eq_roll`). In the list a new key goes to the end, and the head goes if the list was full.
What is read or written goes to the end as well if the policy looks at use, and stays where it is
otherwise.

Nothing moves in the cache itself: it queues a key again under a new stamp. `Cache.roll` is the list that
a cache stands for; each operation on the cache is the operation of that name on the list
(`roll_get`, `roll_insert`, `roll_clear`), as long as the queue is in order and the cache is not too
full (`Cache.Sound`).
-/

namespace UtilityCss

/-! ## The list -/

/-- A cache as a list of keys with values, the next to go first. -/
structure Roll (α : Type) where
  entries : List (String × α)
  capacity : Nat
  policy : EvictionPolicy
  hits : Nat
  misses : Nat

namespace Roll

variable {α : Type}

def new (capacity : Nat) (policy : EvictionPolicy) : Roll α := ⟨[], capacity, policy, 0, 0⟩

def find? (r : Roll α) (key : String) : Option α := r.entries.lookup key

def contains (r : Roll α) (key : String) : Bool := key ∈ r.entries.map Prod.fst

/-- Move a key to the end, with a value. -/
def renew (r : Roll α) (key : String) (value : α) : Roll α :=
  { r with entries := r.entries.filter (·.1 ≠ key) ++ [(key, value)] }

/-- Put another value under a key, which stays where it is. -/
def rewrite (r : Roll α) (key : String) (value : α) : Roll α :=
  { r with entries := r.entries.map fun e => if e.1 = key then (key, value) else e }

/-- Put a new key at the end. If the list was full, its head goes. -/
def append (r : Roll α) (key : String) (value : α) : Roll α :=
  let entries := r.entries ++ [(key, value)]
  { r with entries := if r.capacity ≤ r.entries.length then entries.tail else entries }

/-- Look a key up, and count it. -/
def get (r : Roll α) (key : String) : Option α × Roll α :=
  match r.find? key with
  | some value =>
    let r := { r with hits := r.hits + 1 }
    (some value, if r.policy = .lru then r.renew key value else r)
  | none => (none, { r with misses := r.misses + 1 })

def insert (r : Roll α) (key : String) (value : α) : Roll α :=
  match r.find? key with
  | some _ => if r.policy = .lru then r.renew key value else r.rewrite key value
  | none => r.append key value

/-- Give up all entries and start the counts again. -/
def clear (r : Roll α) : Roll α := { r with entries := [], hits := 0, misses := 0 }

end Roll

/-! ## Requests -/

/-- What can be asked of a cache. -/
inductive CacheRequest (α : Type) where
  | insert (key : String) (value : α)
  | get (key : String)
  | peek (key : String)
  | contains (key : String)
  | clear

/-- What a request is answered with. -/
inductive CacheAnswer (α : Type) where
  | done
  | value (found : Option α)
  | present (found : Bool)
  deriving DecidableEq

/-- Answer a request. -/
def Cache.perform {α : Type} (c : Cache α) : CacheRequest α → CacheAnswer α × Cache α
  | .insert key value => (.done, c.insert key value)
  | .get key => let (found, c) := c.get key; (.value found, c)
  | .peek key => (.value (c.peek? key), c)
  | .contains key => (.present (c.contains key), c)
  | .clear => (.done, c.clear)

/-- Answer a request by the list. -/
def Roll.perform {α : Type} (r : Roll α) : CacheRequest α → CacheAnswer α × Roll α
  | .insert key value => (.done, r.insert key value)
  | .get key => let (found, r) := r.get key; (.value found, r)
  | .peek key => (.value (r.find? key), r)
  | .contains key => (.present (r.contains key), r)
  | .clear => (.done, r.clear)

namespace Cache

variable {α : Type} {c : Cache α}

/-- The list that a cache stands for. -/
def roll (c : Cache α) : Roll α := ⟨c.entries, c.capacity, c.policy, c.hits, c.misses⟩

/-- The queue is in order, and there are no more entries than allowed. -/
structure Sound (c : Cache α) : Prop where
  ordered : c.Ordered
  fits : c.entries.length ≤ c.capacity

/-! ## What is found -/

theorem lookup_eq_some_iff_mem {entries : List (String × α)} (h : (entries.map Prod.fst).Nodup)
    {key : String} {value : α} : entries.lookup key = some value ↔ (key, value) ∈ entries := by
  induction entries with
  | nil => simp
  | cons e entries ih =>
    obtain ⟨other, found⟩ := e
    rw [List.map_cons, List.nodup_cons] at h
    by_cases hkey : key = other
    · subst hkey
      have hnot : (key, value) ∉ entries := fun hmem =>
        h.1 (List.mem_map.mpr ⟨(key, value), hmem, rfl⟩)
      simp [hnot, eq_comm]
    · have hne : (key == other) = false := by simpa using hkey
      rw [List.lookup_cons, hne]
      simp [hkey, ih h.2]

theorem find?_roll (h : c.Ordered) (key : String) : c.roll.find? key = c.peek? key := by
  refine Option.ext fun value => ?_
  rw [← mem_entries h]
  exact lookup_eq_some_iff_mem (nodup_keys_entries h)

theorem contains_roll (h : c.Ordered) (key : String) : c.roll.contains key = c.contains key := by
  rw [Bool.eq_iff_iff, ← mem_keys_entries h, Roll.contains, decide_eq_true_iff]
  rfl

/-! ## One equation for each operation -/

theorem roll_tidy (c : Cache α) : c.tidy.roll = c.roll := by
  have hentries := entries_tidy c
  unfold roll
  rw [hentries]
  unfold tidy
  split <;> rfl

theorem roll_place (h : c.Ordered) (key : String) (value : α) :
    (c.place key value).roll = c.roll.renew key value := by
  simp only [roll, Roll.renew, entries_place h]
  rfl

theorem roll_replace {key : String} {slot : Slot α} (hslot : c.slots[key]? = some slot) (value : α) :
    (c.replace key slot value).roll = c.roll.rewrite key value := by
  simp only [roll, Roll.rewrite, entries_replace hslot]
  rfl

/-- A look-up in a cache is one in its list. -/
theorem roll_get (h : c.Ordered) (key : String) :
    (c.get key).1 = (c.roll.get key).1 ∧ (c.get key).2.roll = (c.roll.get key).2 := by
  have hordered := h.tidy
  have hfind := find?_roll hordered key
  rw [← roll_tidy c]
  unfold get Roll.get
  cases hslot : c.tidy.slots[key]? with
  | none =>
    rw [peek?, hslot, Option.map_none] at hfind
    simp only [hfind, hslot]
    exact ⟨trivial, rfl⟩
  | some slot =>
    rw [peek?, hslot, Option.map_some] at hfind
    simp only [hfind, hslot]
    have hcounted := hordered.count (c.tidy.hits + 1) c.tidy.misses
    refine ⟨trivial, ?_⟩
    by_cases hpolicy : c.tidy.policy = .lru
    · rw [if_pos hpolicy, roll_place hcounted]
      simp only [roll, hpolicy]
      rfl
    · rw [if_neg hpolicy]
      simp only [roll, hpolicy]
      rfl

theorem exists_makeRoom_eq (c : Cache α) :
    ∃ slots order, c.makeRoom = { c with slots := slots, order := order } := by
  unfold makeRoom
  generalize c.size + 1 - c.capacity = n
  induction n with
  | zero => exact ⟨c.slots, c.order, rfl⟩
  | succ n ih =>
    obtain ⟨slots, order, heq⟩ := ih
    rw [Nat.repeat, heq, evict]
    split
    · exact ⟨_, _, rfl⟩
    · exact ⟨_, _, rfl⟩

theorem roll_makeRoom (h : c.Ordered) :
    c.makeRoom.roll = { c.roll with entries := c.entries.drop (c.size + 1 - c.capacity) } := by
  have hentries := (entries_makeRoom h).1
  obtain ⟨slots, order, heq⟩ := exists_makeRoom_eq c
  rw [heq] at hentries ⊢
  simp only [roll, hentries]

theorem roll_place_makeRoom (h : c.Sound) (hcapacity : c.capacity ≠ 0) {key : String}
    (hnew : c.peek? key = none) (value : α) :
    (c.makeRoom.place key value).roll = c.roll.append key value := by
  have hsize := length_entries h.ordered
  have hfits := h.fits
  have hkeep : (c.entries.drop (c.size + 1 - c.capacity)).filter (·.1 ≠ key) =
      c.entries.drop (c.size + 1 - c.capacity) := by
    rw [List.filter_eq_self]
    rintro ⟨other, found⟩ hmem
    have hfound := (mem_entries h.ordered).mp (List.mem_of_mem_drop hmem)
    have hne : other ≠ key := by
      rintro rfl
      rw [hfound] at hnew
      cases hnew
    simpa using hne
  rw [roll_place (entries_makeRoom h.ordered).2, roll_makeRoom h.ordered]
  simp only [Roll.renew, Roll.append, hkeep]
  by_cases hfull : c.roll.capacity ≤ c.roll.entries.length
  · have hfull' : c.capacity ≤ c.entries.length := hfull
    have hone : c.size + 1 - c.capacity = 1 := by omega
    have hne : c.entries ≠ [] := List.ne_nil_of_length_pos (by omega)
    rw [if_pos hfull, hone, List.drop_one]
    simp only [roll, List.tail_append_of_ne_nil hne]
  · have hroom : ¬ c.capacity ≤ c.entries.length := hfull
    have hzero : c.size + 1 - c.capacity = 0 := by omega
    rw [if_neg hfull, hzero, List.drop_zero]
    rfl

theorem exists_tidy_eq (c : Cache α) : ∃ order, c.tidy = { c with order := order } := by
  unfold tidy
  split
  · exact ⟨_, rfl⟩
  · exact ⟨c.order, rfl⟩

theorem capacity_tidy (c : Cache α) : c.tidy.capacity = c.capacity := by
  obtain ⟨order, htidy⟩ := exists_tidy_eq c
  rw [htidy]

theorem Sound.tidy (h : c.Sound) : c.tidy.Sound where
  ordered := h.ordered.tidy
  fits := by rw [entries_tidy, capacity_tidy]; exact h.fits

/-- Writing to a cache is writing to its list. -/
theorem roll_insert (h : c.Sound) (key : String) (value : α) :
    (c.insert key value).roll = c.roll.insert key value := by
  have htidy := h.tidy
  have hfind := find?_roll htidy.ordered key
  unfold insert
  by_cases hcapacity : c.capacity = 0
  · have hnil : c.entries = [] := List.eq_nil_of_length_eq_zero (by have := h.fits; omega)
    rw [if_pos hcapacity]
    simp [roll, Roll.insert, Roll.find?, Roll.append, hnil, hcapacity]
  · rw [if_neg hcapacity, ← roll_tidy c]
    unfold Roll.insert
    cases hslot : c.tidy.slots[key]? with
    | none =>
      have hnew : c.tidy.peek? key = none := by rw [peek?, hslot, Option.map_none]
      rw [hnew] at hfind
      simp only [hfind, hslot]
      exact roll_place_makeRoom htidy (by rwa [capacity_tidy]) hnew value
    | some slot =>
      rw [peek?, hslot, Option.map_some] at hfind
      simp only [hfind, hslot]
      by_cases hpolicy : c.tidy.policy = .lru
      · rw [if_pos hpolicy, roll_place htidy.ordered]
        simp only [roll, hpolicy]
        rfl
      · rw [if_neg hpolicy]
        have hreplace := roll_replace hslot value
        simp only [roll, hpolicy] at hreplace ⊢
        exact hreplace

theorem roll_clear (c : Cache α) : c.clear.roll = c.roll.clear := by
  have hentries : c.clear.entries = [] := entries_of_empty rfl
  simp only [roll, Roll.clear, hentries]
  rfl

/-! ## What the operations keep -/

theorem Ordered.get (h : c.Ordered) (key : String) : (c.get key).2.Ordered := by
  have hordered := h.tidy
  unfold Cache.get
  cases hslot : c.tidy.slots[key]? with
  | none =>
    simp only [hslot]
    exact hordered.count c.tidy.hits (c.tidy.misses + 1)
  | some slot =>
    have hcounted := hordered.count (c.tidy.hits + 1) c.tidy.misses
    simp only [hslot]
    split
    · exact hcounted.place key slot.value
    · exact hcounted

theorem Ordered.insert (h : c.Ordered) (key : String) (value : α) : (c.insert key value).Ordered := by
  unfold Cache.insert
  split
  · exact h
  · dsimp only
    cases hslot : c.tidy.slots[key]? with
    | none => exact (entries_makeRoom h.tidy).2.place key value
    | some slot =>
      dsimp only
      split
      · exact h.tidy.place key value
      · exact h.tidy.replace hslot value

end Cache

/-! ## The list keeps to its capacity -/

namespace Roll

variable {α : Type} {r : Roll α}

theorem length_renew_le {key : String} {value : α} (h : r.find? key = some value) (other : α) :
    (r.renew key other).entries.length ≤ r.entries.length := by
  obtain ⟨front, back, hentries, -⟩ := List.lookup_eq_some_iff.mp h
  have hlt : (r.entries.filter (·.1 ≠ key)).length < r.entries.length := by
    rw [List.length_filter_lt_length_iff_exists]
    exact ⟨(key, value), by simp [hentries], by simp⟩
  simp only [renew, List.length_append, List.length_singleton]
  exact hlt

theorem fits_get (h : r.entries.length ≤ r.capacity) (key : String) :
    (r.get key).2.entries.length ≤ (r.get key).2.capacity := by
  unfold get
  cases hfind : r.find? key with
  | none => exact h
  | some value =>
    dsimp only
    split
    · exact (length_renew_le hfind value).trans h
    · exact h

theorem fits_insert (h : r.entries.length ≤ r.capacity) (key : String) (value : α) :
    (r.insert key value).entries.length ≤ (r.insert key value).capacity := by
  unfold insert
  cases hfind : r.find? key with
  | none =>
    simp only [append]
    split
    · simpa using h
    · simp only [List.length_append, List.length_singleton]
      omega
  | some found =>
    dsimp only
    split
    · exact (length_renew_le hfind value).trans h
    · simpa [rewrite] using h

end Roll

/-! ## Runs -/

namespace Cache

variable {α : Type} {c : Cache α}

theorem sound_new (capacity : Nat) (policy : EvictionPolicy) :
    (new capacity policy : Cache α).Sound where
  ordered := ordered_of_empty rfl rfl
  fits := by
    have hentries : (new capacity policy : Cache α).entries = [] := entries_of_empty rfl
    simp [hentries]

theorem roll_new (capacity : Nat) (policy : EvictionPolicy) :
    (new capacity policy : Cache α).roll = Roll.new capacity policy := by
  have hentries : (new capacity policy : Cache α).entries = [] := entries_of_empty rfl
  simp only [roll, Roll.new, hentries]
  rfl

theorem perform_spec (h : c.Sound) (request : CacheRequest α) :
    (c.perform request).1 = (c.roll.perform request).1 ∧
      (c.perform request).2.roll = (c.roll.perform request).2 ∧ (c.perform request).2.Sound := by
  cases request with
  | insert key value =>
    have hroll := roll_insert h key value
    refine ⟨rfl, hroll, h.ordered.insert key value, ?_⟩
    have hfits := Roll.fits_insert (r := c.roll) h.fits key value
    rwa [← hroll] at hfits
  | get key =>
    obtain ⟨hfound, hroll⟩ := roll_get h.ordered key
    refine ⟨congrArg CacheAnswer.value hfound, hroll, h.ordered.get key, ?_⟩
    have hfits := Roll.fits_get (r := c.roll) h.fits key
    rwa [← hroll] at hfits
  | peek key => exact ⟨congrArg CacheAnswer.value (find?_roll h.ordered key).symm, rfl, h⟩
  | contains key => exact ⟨congrArg CacheAnswer.present (contains_roll h.ordered key).symm, rfl, h⟩
  | clear =>
    have hentries : c.clear.entries = [] := entries_of_empty rfl
    exact ⟨rfl, roll_clear c, ordered_of_empty rfl rfl, by simp [perform, hentries]⟩

theorem counters_perform (c : Cache α) (request : CacheRequest α) :
    (c.perform request).2.clock ≤ c.clock + 1 ∧
      (c.perform request).2.hits + (c.perform request).2.misses ≤ c.hits + c.misses + 1 ∧
      (c.perform request).2.capacity = c.capacity := by
  obtain ⟨order, htidy⟩ := exists_tidy_eq c
  cases request with
  | insert key value =>
    obtain ⟨slots, rest, hroom⟩ := exists_makeRoom_eq c.tidy
    rw [htidy] at hroom
    simp only [perform, insert]
    split
    · simp
    · split
      · split <;> simp [place, htidy]
      · simp [place, htidy, hroom]
  | get key =>
    simp only [perform, get]
    split
    · split <;> simp [place, htidy] <;> omega
    · simp [htidy]
      omega
  | peek key => simp [perform]
  | contains key => simp [perform]
  | clear => simp [perform, clear]

/-- What can be seen of a cache is what its list shows. -/
structure LooksLike (c : Cache α) (r : Roll α) : Prop where
  found : ∀ key, c.peek? key = r.find? key
  present : ∀ key, c.contains key = r.contains key
  stats : c.stats = ⟨r.entries.length, r.capacity, r.hits, r.misses⟩

theorem looksLike_roll (h : c.Ordered) : c.LooksLike c.roll where
  found key := (find?_roll h key).symm
  present key := (contains_roll h key).symm
  stats := by
    have hlength := length_entries h
    simp only [stats, roll, hlength]

/-- **A cache is a list of entries.** Whatever the capacity, the policy and the requests, a cache gives
the answers of the list and looks like it in the end, and the list is no longer than the capacity. No
counter of the cache comes to more than the number of requests. -/
theorem run_eq_roll (capacity : Nat) (policy : EvictionPolicy) (requests : List (CacheRequest α)) :
    let (answers, c) := serve perform (new capacity policy) requests
    let (expected, r) := serve Roll.perform (Roll.new capacity policy) requests
    answers = expected ∧ c.LooksLike r ∧ r.entries.length ≤ capacity ∧
      c.clock ≤ requests.length ∧ c.hits + c.misses ≤ requests.length := by
  have hsound : (new capacity policy : Cache α).Sound := sound_new capacity policy
  obtain ⟨hanswers, hroll⟩ :=
    serve_refines Sound roll (fun _ request h => perform_spec h request) hsound requests
  obtain ⟨hend, hcapacity⟩ := serve_keeps (fun c : Cache α => c.Sound ∧ c.capacity = capacity)
    (fun c request h => ⟨(perform_spec h.1 request).2.2,
      (counters_perform c request).2.2.trans h.2⟩) ⟨hsound, rfl⟩ requests
  have hclock := serve_le Cache.clock (fun c request => (counters_perform c request).1)
    (new capacity policy : Cache α) requests
  have hcounts := serve_le (fun c : Cache α => c.hits + c.misses)
    (fun c request => (counters_perform c request).2.1) (new capacity policy) requests
  rw [roll_new] at hanswers hroll
  dsimp only
  rw [← hroll]
  refine ⟨hanswers, looksLike_roll hend.ordered, ?_, ?_, ?_⟩
  · exact hend.fits.trans (Nat.le_of_eq hcapacity)
  · simpa [new] using hclock
  · simpa [new] using hcounts

end Cache
end UtilityCss
