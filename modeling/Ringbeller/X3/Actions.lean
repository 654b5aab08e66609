import Ringbeller.X3.Parser

/-!
# The actions of a parser

Two general facts about semantic actions. A parser does not see them: with other actions it
matches the same and stops at the same place. And what can be said of the actions that a parser
runs, on whatever range and whether it matches or not, is said of its parts.
-/

namespace X3
set_option autoImplicit false

variable {α ε δ β γ : Type}

/-! ## Other actions -/

def Reply.rename (f : ε → δ) (r : Reply α ε β) : Reply α δ β :=
  ⟨r.hit.map fun h => (h.1, h.2.map f), r.first, r.ran.map f⟩

/-- `q` is `p` with the action `f e` in place of each action `e`. -/
def Renames (f : ε → δ) (p : Parser α ε β) (q : Parser α δ β) : Prop :=
  ∀ x, q x = (p x).rename f

@[simp] theorem Reply.rename_fail (f : ε → δ) (y : List α) (ran : List ε) :
    (Reply.fail y ran : Reply α ε β).rename f = .fail y (ran.map f) := rfl

@[simp] theorem Reply.rename_some (f : ε → δ) (b : β) (k : List ε) (y : List α) (ran : List ε) :
    (⟨some (b, k), y, ran⟩ : Reply α ε β).rename f = ⟨some (b, k.map f), y, ran.map f⟩ := rfl

@[simp] theorem Reply.rename_none (f : ε → δ) (y : List α) (ran : List ε) :
    (⟨none, y, ran⟩ : Reply α ε β).rename f = ⟨none, y, ran.map f⟩ := rfl

theorem Reply.rename_ok (f : ε → δ) (r : Reply α ε β) : (r.rename f).ok = r.ok := by
  simp [Reply.rename, Reply.ok]

theorem Reply.rename_kept (f : ε → δ) (r : Reply α ε β) :
    (r.rename f).kept = r.kept.map f := by
  rcases r with ⟨_ | hit, first, ran⟩ <;> rfl

section Renames
variable {f : ε → δ} {p : Parser α ε β} {q : Parser α δ β} {p' : Parser α ε γ} {q' : Parser α δ γ}

theorem renames_char (skip : α → Bool) :
    Renames f (char skip : Parser α ε α) (char skip) := by
  intro x
  unfold char
  cases skipOver skip x <;> rfl

theorem renames_lit [DecidableEq α] (skip : α → Bool) (s : List α) :
    Renames f (lit skip s : Parser α ε Unit) (lit skip s) := by
  intro x
  simp only [lit]
  split <;> rfl

theorem renames_raw (skip : α → Bool) (h : Renames f p q) :
    Renames f (raw skip p) (raw skip q) := by
  intro x
  simp only [raw, h (skipOver skip x)]
  rcases p (skipOver skip x) with ⟨_ | ⟨b, k⟩, y, ran⟩ <;> rfl

theorem renames_phraseParse (skip : α → Bool) (h : Renames f p q) :
    Renames f (phraseParse skip p) (phraseParse skip q) := by
  intro x
  simp only [phraseParse, h x]
  rfl

theorem renames_act (h : Renames f p q) {g : β → ε} {g' : β → δ} (hg : ∀ b, g' b = f (g b)) :
    Renames f (act p g) (act q g') := by
  intro x
  simp only [act, h x]
  rcases p x with ⟨_ | ⟨b, k⟩, y, ran⟩
  · rfl
  · simp [hg]

theorem renames_diff (h : Renames f p q) (h' : Renames f p' q') :
    Renames f (diff p p') (diff q q') := by
  intro x
  simp only [diff, h' x]
  rcases p' x with ⟨_ | ⟨b, k⟩, y, ran⟩
  · simp [h y, Reply.after, Reply.rename]
  · rfl

theorem renames_seq (h : Renames f p q) (h' : Renames f p' q') :
    Renames f (seq p p') (seq q q') := by
  intro x
  simp only [seq, h x]
  rcases p x with ⟨_ | ⟨b, k⟩, y, ran⟩
  · rfl
  · simp only [Reply.rename_some, h' y]
    rcases p' y with ⟨_ | ⟨c, k'⟩, z, ran'⟩ <;> simp

theorem renames_alt {p₁ p₂ : Parser α ε β} {q₁ q₂ : Parser α δ β} (h₁ : Renames f p₁ q₁)
    (h₂ : Renames f p₂ q₂) : Renames f (alt p₁ p₂) (alt q₁ q₂) := by
  intro x
  simp only [alt, h₁ x]
  rcases p₁ x with ⟨_ | ⟨b, k⟩, y, ran⟩
  · simp [h₂ y, Reply.after, Reply.rename]
  · rfl

theorem renames_alts {ps : List (Parser α ε β)} {qs : List (Parser α δ β)}
    (h : List.Forall₂ (Renames f) ps qs) : Renames f (alts ps) (alts qs) := by
  induction h with
  | nil => exact fun _ => rfl
  | cons h _ ih => exact renames_alt h ih

theorem renames_opt (h : Renames f p q) : Renames f (opt p) (opt q) := by
  intro x
  simp only [opt, h x]
  rcases p x with ⟨_ | ⟨b, k⟩, y, ran⟩ <;> rfl

theorem renames_loop (h : Renames f p q) (n : Nat) : Renames f (loop p n) (loop q n) := by
  induction n with
  | zero => exact fun _ => rfl
  | succ n ih =>
    intro x
    simp only [loop, h x]
    rcases p x with ⟨_ | ⟨b, k⟩, y, ran⟩
    · rfl
    · simp only [Reply.rename_some, ih y, Reply.rename_kept, ← List.map_append]
      simp [Reply.rename]

theorem renames_star (h : Renames f p q) : Renames f (star p) (star q) := fun x =>
  renames_loop h (x.length + 1) x

theorem renames_plus (h : Renames f p q) : Renames f (plus p) (plus q) := by
  intro x
  simp only [plus, h x]
  rcases p x with ⟨_ | ⟨b, k⟩, y, ran⟩
  · rfl
  · simp only [Reply.rename_some, renames_star h y, Reply.rename_kept]
    simp [Reply.rename]

end Renames

/-! ## The actions that run -/

/-- Every action that the parser runs satisfies `P`, also where it is abandoned later. -/
def Runs (P : ε → Prop) (p : Parser α ε β) : Prop := ∀ x, ∀ e ∈ (p x).ran, P e

/-- Every attribute that the parser gives satisfies `A`. -/
def Yields (A : β → Prop) (p : Parser α ε β) : Prop :=
  ∀ x y b k ran, p x = ⟨some (b, k), y, ran⟩ → A b

section Runs
variable {P : ε → Prop} {p p₁ p₂ : Parser α ε β} {q : Parser α ε γ}

theorem runs_char (skip : α → Bool) : Runs P (char skip) := by
  intro x e he
  simp only [char] at he
  split at he <;> cases he

theorem runs_lit [DecidableEq α] (skip : α → Bool) (s : List α) : Runs P (lit skip s) := by
  intro x e he
  simp only [lit] at he
  split at he <;> cases he

theorem runs_raw (skip : α → Bool) (h : Runs P p) : Runs P (raw skip p) := by
  intro x e he
  have hp := h (skipOver skip x)
  simp only [raw] at he
  rcases hr : p (skipOver skip x) with ⟨_ | ⟨b, k⟩, y, ran⟩ <;> rw [hr] at he hp <;> exact hp e he

theorem runs_act {A : β → Prop} (h : Runs P p) (hy : Yields A p) {g : β → ε}
    (hg : ∀ b, A b → P (g b)) : Runs P (act p g) := by
  intro x e he
  have hp := h x
  have hb := hy x
  simp only [act] at he
  rcases hr : p x with ⟨_ | ⟨b, k⟩, y, ran⟩ <;> rw [hr] at he hp
  · exact hp e he
  · rcases List.mem_append.mp he with he | he
    · exact hp e he
    · rw [List.mem_singleton.mp he]
      exact hg b (hb y b k ran hr)

theorem runs_diff (h : Runs P p) (hq : Runs P q) : Runs P (diff p q) := by
  intro x e he
  have hx := hq x
  simp only [diff] at he
  rcases hr : q x with ⟨_ | ⟨c, k⟩, y, ran⟩ <;> rw [hr] at he hx
  · rcases List.mem_append.mp he with he | he
    · exact hx e he
    · exact h y e he
  · exact hx e he

theorem runs_seq (h : Runs P p) (hq : Runs P q) : Runs P (seq p q) := by
  intro x e he
  have hx := h x
  simp only [seq] at he
  rcases hr : p x with ⟨_ | ⟨b, k⟩, y, ran⟩ <;> rw [hr] at he hx
  · exact hx e he
  · have hy := hq y
    rcases hr' : q y with ⟨_ | ⟨c, k'⟩, z, ran'⟩ <;> simp only [hr'] at he hy <;>
      exact (List.mem_append.mp he).elim (hx e) (hy e)

theorem runs_alt (h₁ : Runs P p₁) (h₂ : Runs P p₂) : Runs P (alt p₁ p₂) := by
  intro x e he
  have hx := h₁ x
  simp only [alt] at he
  rcases hr : p₁ x with ⟨_ | ⟨b, k⟩, y, ran⟩ <;> rw [hr] at he hx
  · exact (List.mem_append.mp he).elim (hx e) (h₂ y e)
  · exact hx e he

theorem runs_alts {ps : List (Parser α ε β)} (h : ∀ p ∈ ps, Runs P p) : Runs P (alts ps) := by
  induction ps with
  | nil =>
    intro x e he
    cases he
  | cons p ps ih =>
    obtain ⟨hp, hps⟩ := List.forall_mem_cons.mp h
    exact runs_alt hp (ih hps)

theorem runs_opt (h : Runs P p) : Runs P (opt p) := by
  intro x e he
  have hx := h x
  simp only [opt] at he
  rcases hr : p x with ⟨_ | ⟨b, k⟩, y, ran⟩ <;> rw [hr] at he hx <;> exact hx e he

theorem runs_loop (h : Runs P p) (n : Nat) : Runs P (loop p n) := by
  induction n with
  | zero =>
    intro x e he
    cases he
  | succ n ih =>
    intro x e he
    have hx := h x
    simp only [loop] at he
    rcases hr : p x with ⟨_ | ⟨b, k⟩, y, ran⟩ <;> rw [hr] at he hx
    · exact hx e he
    · exact (List.mem_append.mp he).elim (hx e) (ih y e)

theorem runs_plus (h : Runs P p) : Runs P (plus p) := by
  intro x e he
  have hx := h x
  simp only [plus] at he
  rcases hr : p x with ⟨_ | ⟨b, k⟩, y, ran⟩ <;> rw [hr] at he hx
  · exact hx e he
  · exact (List.mem_append.mp he).elim (hx e) (runs_loop h _ y e)

theorem yields_unit (p : Parser α ε Unit) : Yields (fun _ => True) p := fun _ _ _ _ _ _ => trivial

end Runs

end X3
