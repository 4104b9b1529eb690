/-!
# Runs

A machine answers one request after the other and changes its state. `serve` collects the answers to a
list of requests. What one step keeps, a run keeps (`serve_keeps`), and a machine whose steps agree with
those of another one through a view of its states gives the same answers (`serve_refines`).
-/

namespace UtilityCss

variable {σ τ ρ α : Type}

/-- Answer requests one after the other. -/
def serve (step : σ → ρ → α × σ) (s : σ) : List ρ → List α × σ
  | [] => ([], s)
  | request :: rest =>
    let (answer, s) := step s request
    let (answers, s) := serve step s rest
    (answer :: answers, s)

theorem serve_cons (step : σ → ρ → α × σ) (s : σ) (request : ρ) (rest : List ρ) :
    serve step s (request :: rest) =
      ((step s request).1 :: (serve step (step s request).2 rest).1,
        (serve step (step s request).2 rest).2) := rfl

theorem serve_keeps {step : σ → ρ → α × σ} (inv : σ → Prop)
    (hstep : ∀ s request, inv s → inv (step s request).2) {s : σ} (h : inv s) (requests : List ρ) :
    inv (serve step s requests).2 := by
  induction requests generalizing s with
  | nil => exact h
  | cons request rest ih => exact ih (hstep s request h)

theorem serve_le {step : σ → ρ → α × σ} (measure : σ → Nat)
    (hstep : ∀ s request, measure (step s request).2 ≤ measure s + 1) (s : σ) (requests : List ρ) :
    measure (serve step s requests).2 ≤ measure s + requests.length := by
  induction requests generalizing s with
  | nil => exact Nat.le_refl _
  | cons request rest ih =>
    have hfirst := hstep s request
    have hrest := ih (step s request).2
    simp only [serve_cons, List.length_cons]
    omega

/-- The answers of a machine are those of another one that its steps agree with through a view. -/
theorem serve_refines {step : σ → ρ → α × σ} {spec : τ → ρ → α × τ} (inv : σ → Prop) (view : σ → τ)
    (hstep : ∀ s request, inv s → (step s request).1 = (spec (view s) request).1 ∧
      view (step s request).2 = (spec (view s) request).2 ∧ inv (step s request).2)
    {s : σ} (h : inv s) (requests : List ρ) :
    (serve step s requests).1 = (serve spec (view s) requests).1 ∧
      view (serve step s requests).2 = (serve spec (view s) requests).2 := by
  induction requests generalizing s with
  | nil => exact ⟨rfl, rfl⟩
  | cons request rest ih =>
    obtain ⟨hanswer, hview, hinv⟩ := hstep s request h
    obtain ⟨hanswers, hend⟩ := ih hinv
    rw [hview] at hanswers hend
    rw [serve_cons, serve_cons]
    exact ⟨List.cons_eq_cons.mpr ⟨hanswer, hanswers⟩, hend⟩

end UtilityCss
