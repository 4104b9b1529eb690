import UtilityCss.Cache.Basic

/-!
# Caches that hold nothing but answers

`Holds R c` says that every value in the cache `c` is related by `R` to the key it stands under. No
operation can put anything else into a cache: reading moves keys, evicting and clearing take keys
away, and writing adds the one value that was handed in. So a cache that starts empty, and is written
with related values alone, holds related values whatever its capacity and its policy
(`holds_new`, `holds_get`, `holds_insert`, `holds_clear`).
-/

namespace UtilityCss.Cache

variable {α : Type} {R : String → α → Prop} {c : Cache α}

/-- Every value in the cache is related to its key. -/
def Holds (R : String → α → Prop) (c : Cache α) : Prop :=
  ∀ key value, c.peek? key = some value → R key value

/-! ## What the operations do to a look-up -/

theorem peek?_tidy (c : Cache α) (key : String) : c.tidy.peek? key = c.peek? key := by
  unfold tidy
  split <;> rfl

theorem peek?_place (c : Cache α) (key : String) (value : α) (other : String) :
    (c.place key value).peek? other = if key = other then some value else c.peek? other := by
  simp only [peek?, place, Std.HashMap.getElem?_insert, beq_iff_eq]
  split <;> rfl

theorem peek?_of_evict {key : String} {value : α} (h : c.evict.peek? key = some value) :
    c.peek? key = some value := by
  unfold evict at h
  split at h
  · next gone rest _ =>
    simp only [peek?, Std.HashMap.getElem?_erase] at h ⊢
    split at h
    · simp at h
    · exact h
  · exact h

theorem peek?_of_makeRoom {key : String} {value : α} (h : c.makeRoom.peek? key = some value) :
    c.peek? key = some value := by
  unfold makeRoom at h
  generalize c.size + 1 - c.capacity = n at h
  induction n with
  | zero => exact h
  | succ n ih => exact ih (peek?_of_evict h)

theorem fst_get (c : Cache α) (key : String) : (c.get key).1 = c.peek? key := by
  rw [← peek?_tidy]
  unfold get peek?
  cases h : c.tidy.slots[key]? with
  | none => simp [h]
  | some slot => simp [h]

theorem peek?_snd_get (c : Cache α) (key other : String) :
    (c.get key).2.peek? other = c.peek? other := by
  rw [← peek?_tidy c other]
  unfold get
  cases h : c.tidy.slots[key]? with
  | none => simp only [h]; rfl
  | some slot =>
    simp only [h]
    split
    · rw [peek?_place]
      split
      · next hk => subst hk; simp [peek?, h]
      · rfl
    · rfl

/-! ## What the operations keep -/

theorem holds_new (capacity : Nat) (policy : EvictionPolicy) :
    Holds R (Cache.new capacity policy : Cache α) := by
  intro key value h
  simp [new, peek?] at h

theorem holds_clear (c : Cache α) : Holds R c.clear := by
  intro key value h
  simp [clear, peek?] at h

theorem holds_get (h : Holds R c) (key : String) : Holds R (c.get key).2 := by
  intro other value hv
  rw [peek?_snd_get] at hv
  exact h other value hv

theorem Holds.of_get (h : Holds R c) {key : String} {value : α} (hv : (c.get key).1 = some value) :
    R key value := by
  rw [fst_get] at hv
  exact h key value hv

theorem Holds.place (h : Holds R c) {key : String} {value : α} (hv : R key value) :
    Holds R (c.place key value) := by
  intro other found hf
  rw [peek?_place] at hf
  split at hf
  · next hk =>
    subst hk
    exact Option.some.inj hf ▸ hv
  · exact h other found hf

theorem holds_insert (h : Holds R c) {key : String} {value : α} (hv : R key value) :
    Holds R (c.insert key value) := by
  have htidy : Holds R c.tidy := by
    intro other found hf
    rw [peek?_tidy] at hf
    exact h other found hf
  have hroom : Holds R c.tidy.makeRoom := fun other found hf =>
    htidy other found (peek?_of_makeRoom hf)
  unfold insert
  split
  · exact h
  · dsimp only
    split
    · next slot _ =>
      split
      · exact htidy.place hv
      · -- a key that keeps its place gets the new value under its old stamp
        intro other found hf
        simp only [peek?, Std.HashMap.getElem?_insert, beq_iff_eq] at hf
        split at hf
        · next hk =>
          subst hk
          exact Option.some.inj hf ▸ hv
        · exact htidy other found hf
    · exact hroom.place hv

end UtilityCss.Cache
