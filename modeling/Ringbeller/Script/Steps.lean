import Mathlib.Data.List.Basic

/-!
# Statements that may return

A function body as a list of statements on a state, each of which goes on, returns a
status or ends the program, and rules for what holds after each.
-/

namespace Script
set_option autoImplicit false

variable {σ : Type}

/-- Status 0 goes on with the next statement and any other status is returned; without a
status the program has ended inside the statement. -/
abbrev Step (σ : Type) := σ → Option Int × σ

def sequence : List (Step σ) → Step σ
  | [] => fun s => (some 0, s)
  | step :: steps => fun s =>
    let r := step s
    if r.1 = some 0 then sequence steps r.2 else r

def does (f : σ → σ) : Step σ := fun s => (some 0, f s)

theorem sequence_go {step : Step σ} {s : σ} (h : (step s).1 = some 0) (steps : List (Step σ)) :
    sequence (step :: steps) s = sequence steps (step s).2 := if_pos h

theorem sequence_stop {step : Step σ} {s : σ} (h : (step s).1 ≠ some 0) (steps : List (Step σ)) :
    sequence (step :: steps) s = step s := if_neg h

theorem sequence_singleton (step : Step σ) : sequence [step] = step := by
  funext s
  by_cases h0 : (step s).1 = some 0
  · rw [sequence_go h0]
    exact Prod.ext h0.symm rfl
  · rw [sequence_stop h0]

theorem sequence_append {steps : List (Step σ)} {s : σ} (h : (sequence steps s).1 = some 0)
    (steps' : List (Step σ)) :
    sequence (steps ++ steps') s = sequence steps' (sequence steps s).2 := by
  induction steps generalizing s with
  | nil => rfl
  | cons step steps ih =>
    by_cases h0 : (step s).1 = some 0
    · rw [sequence_go h0] at h
      rw [List.cons_append, sequence_go h0, sequence_go h0, ih h]
    · rw [sequence_stop h0] at h
      exact absurd h h0

theorem sequence_append_stop {steps : List (Step σ)} {s : σ} (h : (sequence steps s).1 ≠ some 0)
    (steps' : List (Step σ)) : sequence (steps ++ steps') s = sequence steps s := by
  induction steps generalizing s with
  | nil => exact absurd rfl h
  | cons step steps ih =>
    by_cases h0 : (step s).1 = some 0
    · rw [sequence_go h0] at h ⊢
      rw [List.cons_append, sequence_go h0, ih h]
    · rw [List.cons_append, sequence_stop h0, sequence_stop h0]

theorem sequence_status {steps : List (Step σ)} {P : Option Int → Prop} (h0 : P (some 0))
    (h : ∀ step ∈ steps, ∀ s, P (step s).1) (s : σ) : P (sequence steps s).1 := by
  induction steps generalizing s with
  | nil => exact h0
  | cons step steps ih =>
    obtain ⟨hstep, hsteps⟩ := List.forall_mem_cons.mp h
    by_cases hgo : (step s).1 = some 0
    · rw [sequence_go hgo]
      exact ih hsteps _
    · rw [sequence_stop hgo]
      exact hstep s

/-- From `P`, a statement that goes on establishes `Q`, and one that does not `E`. -/
def Triple (P : σ → Prop) (step : Step σ) (Q E : σ → Prop) : Prop :=
  ∀ s, P s → ((step s).1 = some 0 → Q (step s).2) ∧ ((step s).1 ≠ some 0 → E (step s).2)

section Rules
variable {P P' Q Q' R E E' : σ → Prop} {step : Step σ} {steps steps' : List (Step σ)}

theorem Triple.imp (h : Triple P step Q E) (hP : ∀ s, P' s → P s) (hQ : ∀ s, Q s → Q' s)
    (hE : ∀ s, E s → E' s) : Triple P' step Q' E' := fun s hs =>
  ⟨fun h0 => hQ _ ((h s (hP s hs)).1 h0), fun h0 => hE _ ((h s (hP s hs)).2 h0)⟩

theorem Triple.holds (h : Triple P step Q Q) {s : σ} (hs : P s) : Q (step s).2 := by
  by_cases h0 : (step s).1 = some 0
  · exact (h s hs).1 h0
  · exact (h s hs).2 h0

theorem triple_of_keeps (h : ∀ s, P s → P (step s).2) : Triple P step P P := fun s hs =>
  ⟨fun _ => h s hs, fun _ => h s hs⟩

theorem triple_does {f : σ → σ} (h : ∀ s, P s → Q (f s)) : Triple P (does f) Q E := fun s hs =>
  ⟨fun _ => h s hs, fun h0 => absurd rfl h0⟩

theorem triple_nil : Triple P (sequence []) P E := fun _ hs =>
  ⟨fun _ => hs, fun h0 => absurd rfl h0⟩

theorem triple_cons (h : Triple P step Q E) (hs : Triple Q (sequence steps) R E) :
    Triple P (sequence (step :: steps)) R E := by
  intro s hP
  by_cases h0 : (step s).1 = some 0
  · rw [sequence_go h0]
    exact hs _ ((h s hP).1 h0)
  · rw [sequence_stop h0]
    exact ⟨fun hz => absurd hz h0, (h s hP).2⟩

theorem triple_append (h : Triple P (sequence steps) Q E) (h' : Triple Q (sequence steps') R E) :
    Triple P (sequence (steps ++ steps')) R E := by
  induction steps generalizing P with
  | nil =>
    intro s hP
    exact h' s ((h s hP).1 rfl)
  | cons step steps ih =>
    intro s hP
    have hs := h s hP
    by_cases h0 : (step s).1 = some 0
    · rw [sequence_go h0] at hs
      rw [List.cons_append, sequence_go h0]
      exact ih (P := fun t => t = (step s).2) (fun t ht => ht ▸ hs) _ rfl
    · rw [sequence_stop h0] at hs
      rw [List.cons_append, sequence_stop h0]
      exact ⟨fun hz => absurd hz h0, fun _ => hs.2 h0⟩

theorem triple_all (h : ∀ step ∈ steps, Triple P step P E) : Triple P (sequence steps) P E := by
  induction steps with
  | nil => exact triple_nil
  | cons step steps ih =>
    exact triple_cons (h step List.mem_cons_self)
      (ih fun step' hs => h step' (List.mem_cons_of_mem step hs))

end Rules

/-! ## The statements that a run starts -/

section Started
variable {ι : Type} (step : ι → Step σ)

/-- The statements of a list that are started, each with the state that it is started in. -/
def started : List ι → σ → List (ι × σ)
  | [], _ => []
  | i :: is, s => (i, s) :: if (step i s).1 = some 0 then started is (step i s).2 else []

variable {step} {i : ι} {is : List ι} {s t : σ}

theorem started_go (h : (step i s).1 = some 0) :
    started step (i :: is) s = (i, s) :: started step is (step i s).2 := by
  rw [started, if_pos h]

theorem started_stop (h : (step i s).1 ≠ some 0) : started step (i :: is) s = [(i, s)] := by
  rw [started, if_neg h]

theorem started_singleton (i : ι) (s : σ) : started step [i] s = [(i, s)] := by
  simp only [started, ite_self]

theorem started_append (is js : List ι) (s : σ) :
    started step (is ++ js) s = started step is s ++
      if (sequence (is.map step) s).1 = some 0 then
        started step js (sequence (is.map step) s).2 else [] := by
  induction is generalizing s with
  | nil => rfl
  | cons i is ih =>
    rw [List.cons_append, List.map_cons]
    by_cases h : (step i s).1 = some 0
    · rw [started_go h, started_go h, sequence_go h, ih, List.cons_append]
    · rw [started_stop h, started_stop h, sequence_stop h, if_neg h, List.append_nil]

/-- A statement is started when the statements before it have all gone on. -/
theorem mem_started : (i, t) ∈ started step is s ↔
    ∃ past behind, is = past ++ i :: behind ∧ sequence (past.map step) s = (some 0, t) := by
  induction is generalizing s with
  | nil =>
    constructor
    · intro h
      cases h
    · rintro ⟨past, behind, h, _⟩
      simp at h
  | cons j is ih =>
    constructor
    · intro h
      by_cases h0 : (step j s).1 = some 0
      · rw [started_go h0] at h
        rcases List.mem_cons.mp h with h | h
        · obtain ⟨rfl, rfl⟩ := Prod.mk.inj h
          exact ⟨[], is, rfl, rfl⟩
        · obtain ⟨past, behind, rfl, hs⟩ := ih.mp h
          exact ⟨j :: past, behind, rfl, by rw [List.map_cons, sequence_go h0, hs]⟩
      · rw [started_stop h0] at h
        obtain ⟨rfl, rfl⟩ := Prod.mk.inj (List.mem_singleton.mp h)
        exact ⟨[], is, rfl, rfl⟩
    · rintro ⟨past, behind, h, hs⟩
      cases past with
      | nil =>
        obtain ⟨rfl, rfl⟩ := List.cons.inj h
        obtain rfl : s = t := (Prod.mk.inj hs).2
        rw [started]
        exact List.mem_cons_self
      | cons k past =>
        obtain ⟨rfl, rfl⟩ := List.cons.inj h
        rw [List.map_cons] at hs
        by_cases h0 : (step j s).1 = some 0
        · rw [sequence_go h0] at hs
          rw [started_go h0]
          exact List.mem_cons_of_mem _ (ih.mpr ⟨past, behind, rfl, hs⟩)
        · rw [sequence_stop h0] at hs
          exact absurd (by rw [hs]) h0

theorem sequence_ok_iff : (sequence (is.map step) s).1 = some 0 ↔
    ∀ x ∈ started step is s, (step x.1 x.2).1 = some 0 := by
  induction is generalizing s with
  | nil => exact ⟨fun _ x hx => (List.not_mem_nil hx).elim, fun _ => rfl⟩
  | cons i is ih =>
    rw [List.map_cons]
    by_cases h0 : (step i s).1 = some 0
    · rw [sequence_go h0, started_go h0, ih, List.forall_mem_cons]
      exact ⟨fun h => ⟨h0, h⟩, fun h => h.2⟩
    · rw [sequence_stop h0, started_stop h0, List.forall_mem_singleton]

/-- A run of statements ends with another status than 0 in the last statement that it starts. -/
theorem sequence_stopped_iff {r : Option Int} (hr : r ≠ some 0) :
    (sequence (is.map step) s).1 = r ↔ ∃ x ∈ started step is s, (step x.1 x.2).1 = r := by
  induction is generalizing s with
  | nil =>
    refine ⟨fun h => absurd h.symm hr, fun h => ?_⟩
    obtain ⟨x, hx, _⟩ := h
    exact (List.not_mem_nil hx).elim
  | cons i is ih =>
    rw [List.map_cons]
    by_cases h0 : (step i s).1 = some 0
    · rw [sequence_go h0, started_go h0, ih]
      constructor
      · rintro ⟨x, hx, h⟩
        exact ⟨x, List.mem_cons_of_mem _ hx, h⟩
      · rintro ⟨x, hx, h⟩
        rcases List.mem_cons.mp hx with rfl | hx
        · exact absurd (h.symm.trans h0) hr
        · exact ⟨x, hx, h⟩
    · rw [sequence_stop h0, started_stop h0]
      simp

end Started

/-! ## Statements on the states that are reached -/

section Reached

/-- Two scripts that do the same wherever a property holds that they keep as they go on. -/
theorem sequence_congr {ι : Type} {f g : ι → Step σ} {P : σ → Prop} {is : List ι}
    (h : ∀ i ∈ is, ∀ s, P s → f i s = g i s ∧ ((g i s).1 = some 0 → P (g i s).2)) {s : σ}
    (hs : P s) :
    sequence (is.map f) s = sequence (is.map g) s := by
  induction is generalizing s with
  | nil => rfl
  | cons i is ih =>
    obtain ⟨hi, his⟩ := List.forall_mem_cons.mp h
    obtain ⟨hsame, hkept⟩ := hi s hs
    rw [List.map_cons, List.map_cons]
    by_cases h0 : (g i s).1 = some 0
    · rw [sequence_go (by rw [hsame]; exact h0), sequence_go h0, hsame]
      exact ih his (hkept h0)
    · rw [sequence_stop (by rw [hsame]; exact h0), sequence_stop h0, hsame]

/-- What each statement yields, provided that those before it have gone on. -/
theorem sequence_yields {P : σ → Prop} {Q : Option Int × σ → Prop} {steps : List (Step σ)}
    (hnil : ∀ s, P s → Q (some 0, s))
    (h : ∀ step ∈ steps, ∀ s, P s → Q (step s) ∧ ((step s).1 = some 0 → P (step s).2)) {s : σ}
    (hs : P s) : Q (sequence steps s) := by
  induction steps generalizing s with
  | nil => exact hnil s hs
  | cons step steps ih =>
    obtain ⟨hstep, hsteps⟩ := List.forall_mem_cons.mp h
    obtain ⟨hq, hgo⟩ := hstep s hs
    by_cases h0 : (step s).1 = some 0
    · rw [sequence_go h0]
      exact ih hsteps (hgo h0)
    · rw [sequence_stop h0]
      exact hq

end Reached

end Script
