import Mathlib.Data.List.Basic
import Mathlib.Data.List.DropRight

/-!
# Ordered choice with semantic actions

Parsers over a range of tokens, with a skipper before every primitive. An action
runs as soon as its own parser matches and is not undone on backtracking. A reply
therefore keeps two lists: the actions that ran, and those of them that belong to
the derivation of the match.
-/

namespace X3
set_option autoImplicit false

/-- What one call of `parse` leaves behind. The iterator is the part of the range
that it has not passed; the actions of the derivation exist for a match only. -/
structure Reply (α ε β : Type) where
  hit : Option (β × List ε)
  first : List α
  ran : List ε
  deriving Repr, DecidableEq

abbrev Parser (α ε β : Type) := List α → Reply α ε β

variable {α ε β γ : Type}

namespace Reply

def ok (r : Reply α ε β) : Bool := r.hit.isSome

def kept (r : Reply α ε β) : List ε := (r.hit.map Prod.snd).getD []

def fail (first : List α) (ran : List ε) : Reply α ε β := ⟨none, first, ran⟩

/-- The reply of a parser that was tried after the actions `ran`. -/
def after (ran : List ε) (r : Reply α ε β) : Reply α ε β := { r with ran := ran ++ r.ran }

@[simp] theorem after_nil (r : Reply α ε β) : r.after [] = r := rfl

@[simp] theorem ok_fail (first : List α) (ran : List ε) :
    (fail first ran : Reply α ε β).ok = false := rfl

@[simp] theorem ok_mk_some (b : β) (kept ran : List ε) (first : List α) :
    (⟨some (b, kept), first, ran⟩ : Reply α ε β).ok = true := rfl

@[simp] theorem kept_mk_some (b : β) (kept ran : List ε) (first : List α) :
    (⟨some (b, kept), first, ran⟩ : Reply α ε β).kept = kept := rfl

end Reply

section Primitives
variable (skip : α → Bool)

def skipOver (first : List α) : List α := first.dropWhile skip

def char : Parser α ε α := fun first =>
  match skipOver skip first with
  | [] => .fail [] []
  | c :: rest => ⟨some (c, []), rest, []⟩

/-- No skipping inside the literal. A mismatch leaves the iterator behind the skipped tokens. -/
def lit [DecidableEq α] (s : List α) : Parser α ε Unit := fun first =>
  let i := skipOver skip first
  if s.isPrefixOf i then ⟨some ((), []), i.drop s.length, []⟩ else .fail i []

/-- The attribute is the range from the first token behind the skipped ones to the iterator. -/
def raw (p : Parser α ε β) : Parser α ε (List α) := fun first =>
  let i := skipOver skip first
  match p i with
  | ⟨none, _, ran⟩ => .fail i ran
  | ⟨some (_, kept), rest, ran⟩ => ⟨some (i.take (i.length - rest.length), kept), rest, ran⟩

/-- Parsing with the skipper run once more at the end. -/
def phraseParse (p : Parser α ε β) : Parser α ε β := fun first =>
  let r := p first
  { r with first := skipOver skip r.first }

end Primitives

def act (p : Parser α ε β) (f : β → ε) : Parser α ε β := fun first =>
  match p first with
  | ⟨none, rest, ran⟩ => .fail rest ran
  | ⟨some (b, kept), rest, ran⟩ => ⟨some (b, kept ++ [f b]), rest, ran ++ [f b]⟩

/-- `p - q`: `q` is tried first, and its match is a failure that restores the iterator. -/
def diff (p : Parser α ε β) (q : Parser α ε γ) : Parser α ε β := fun first =>
  match q first with
  | ⟨some _, _, ran⟩ => .fail first ran
  | ⟨none, rest, ran⟩ => (p rest).after ran

/-- `p >> q`: a failure of either side restores the iterator. -/
def seq (p : Parser α ε β) (q : Parser α ε γ) : Parser α ε Unit := fun first =>
  match p first with
  | ⟨none, _, ran⟩ => .fail first ran
  | ⟨some (_, kept), rest, ran⟩ =>
    match q rest with
    | ⟨none, _, ran'⟩ => .fail first (ran ++ ran')
    | ⟨some (_, kept'), rest', ran'⟩ => ⟨some ((), kept ++ kept'), rest', ran ++ ran'⟩

/-- `p | q`: the second alternative starts where the first one left the iterator. -/
def alt (p q : Parser α ε β) : Parser α ε β := fun first =>
  match p first with
  | ⟨none, rest, ran⟩ => (q rest).after ran
  | r => r

/-- `p | q | ..`, tried in order. -/
def alts : List (Parser α ε β) → Parser α ε β
  | [] => fun first => .fail first []
  | p :: ps => alt p (alts ps)

def opt (p : Parser α ε β) : Parser α ε Unit := fun first =>
  match p first with
  | ⟨none, rest, ran⟩ => ⟨some ((), []), rest, ran⟩
  | ⟨some (_, kept), rest, ran⟩ => ⟨some ((), kept), rest, ran⟩

/-- `while (p.parse(first, ..));` bounded by `fuel`; `loop_fuel` says when the bound is idle. -/
def loop (p : Parser α ε β) : Nat → Parser α ε Unit
  | 0, first => ⟨some ((), []), first, []⟩
  | fuel + 1, first =>
    match p first with
    | ⟨none, rest, ran⟩ => ⟨some ((), []), rest, ran⟩
    | ⟨some (_, kept), rest, ran⟩ =>
      let r := loop p fuel rest
      ⟨some ((), kept ++ r.kept), r.first, ran ++ r.ran⟩

def star (p : Parser α ε β) : Parser α ε Unit := fun first => loop p (first.length + 1) first

def plus (p : Parser α ε β) : Parser α ε Unit := fun first =>
  match p first with
  | ⟨none, rest, ran⟩ => .fail rest ran
  | ⟨some (_, kept), rest, ran⟩ =>
    let r := star p rest
    ⟨some ((), kept ++ r.kept), r.first, ran ++ r.ran⟩

/-- The effects of a list of actions on the outputs they write to. -/
def perform {σ : Type} (actions : List (σ → σ)) (s : σ) : σ := actions.foldl (fun s f => f s) s

/-! ## Replies of the combinators -/

section Skipping
variable {skip : α → Bool}

theorem skipOver_append {s : List α} (hs : ∀ b ∈ s, skip b = true) (x : List α) :
    skipOver skip (s ++ x) = skipOver skip x := by
  induction s with
  | nil => rfl
  | cons b s ih =>
    have hb := hs b List.mem_cons_self
    rw [List.cons_append, skipOver, List.dropWhile_cons_of_pos hb]
    exact ih (fun c hc => hs c (List.mem_cons_of_mem b hc))

theorem skipOver_cons_of_neg {c : α} (hc : skip c = false) (x : List α) :
    skipOver skip (c :: x) = c :: x := List.dropWhile_cons_of_neg (by simp [hc])

theorem skipOver_cons_of_pos {c : α} (hc : skip c = true) (x : List α) :
    skipOver skip (c :: x) = skipOver skip x := List.dropWhile_cons_of_pos hc

@[simp] theorem skipOver_nil : skipOver skip ([] : List α) = [] := rfl

theorem skipOver_suffix (x : List α) : skipOver skip x <:+ x := List.dropWhile_suffix skip

theorem mem_of_mem_skipOver {c : α} {x : List α} (h : c ∈ skipOver skip x) : c ∈ x :=
  (skipOver_suffix x).subset h

theorem skipOver_split (x : List α) :
    ∃ s, (∀ b ∈ s, skip b = true) ∧ x = s ++ skipOver skip x :=
  ⟨x.takeWhile skip, fun _ hb => List.mem_takeWhile_imp hb,
    (List.takeWhile_append_dropWhile (p := skip)).symm⟩

theorem skipOver_head {x w : List α} {c : α} (h : skipOver skip x = c :: w) : skip c = false := by
  have hn := List.head?_dropWhile_not skip x
  rw [show x.dropWhile skip = c :: w from h] at hn
  simpa using hn

@[simp] theorem skipOver_skipOver (x : List α) :
    skipOver skip (skipOver skip x) = skipOver skip x := by
  cases h : skipOver skip x with
  | nil => rfl
  | cons c w => exact skipOver_cons_of_neg (skipOver_head h) w

theorem skipOver_eq_nil {x : List α} : skipOver skip x = [] ↔ ∀ b ∈ x, skip b = true :=
  List.dropWhile_eq_nil_iff

theorem skipOver_append_le (x w : List α) :
    (skipOver skip (x ++ w)).length ≤ (skipOver skip x).length + w.length := by
  obtain ⟨s, hs, hx⟩ : ∃ s, (∀ b ∈ s, skip b = true) ∧ x = s ++ skipOver skip x :=
    skipOver_split x
  have hskip : skipOver skip (x ++ w) = skipOver skip (skipOver skip x ++ w) := by
    conv_lhs => rw [hx, List.append_assoc]
    exact skipOver_append hs _
  rw [hskip, ← List.length_append]
  exact (skipOver_suffix _).length_le

theorem skipOver_length_mono {x v : List α} (h : v <:+ x) :
    (skipOver skip v).length ≤ (skipOver skip x).length := by
  obtain ⟨u, rfl⟩ := h
  induction u with
  | nil => exact Nat.le_refl _
  | cons b u ih =>
    rw [List.cons_append]
    cases hb : skip b with
    | true =>
      rw [skipOver_cons_of_pos hb]
      exact ih
    | false =>
      have hle : (skipOver skip v).length ≤ v.length := (skipOver_suffix v).length_le
      rw [skipOver_cons_of_neg hb, List.length_cons, List.length_append]
      omega

variable [DecidableEq α]

theorem lit_ok {s x w : List α} (h : skipOver skip x = s ++ w) :
    (lit skip s x : Reply α ε Unit) = ⟨some ((), []), w, []⟩ := by
  have hp : s.isPrefixOf (s ++ w) = true := List.isPrefixOf_iff_prefix.mpr (List.prefix_append s w)
  simp only [lit, h, hp, if_true, List.drop_left]

theorem lit_fail {s x : List α} (h : ¬ s <+: skipOver skip x) :
    (lit skip s x : Reply α ε Unit) = .fail (skipOver skip x) [] := by
  have hp : ¬ s.isPrefixOf (skipOver skip x) = true := fun hs =>
    h (List.isPrefixOf_iff_prefix.mp hs)
  simp only [lit]
  rw [if_neg hp]

end Skipping

theorem seq_ok {p : Parser α ε β} {q : Parser α ε γ} {x y z : List α} {b : β} {c : γ}
    {k k' r r' : List ε} (hp : p x = ⟨some (b, k), y, r⟩) (hq : q y = ⟨some (c, k'), z, r'⟩) :
    seq p q x = ⟨some ((), k ++ k'), z, r ++ r'⟩ := by simp only [seq, hp, hq]

theorem seq_fail_left {p : Parser α ε β} {q : Parser α ε γ} {x y : List α} {r : List ε}
    (hp : p x = .fail y r) : seq p q x = .fail x r := by simp only [seq, hp, Reply.fail]

theorem seq_fail_right {p : Parser α ε β} {q : Parser α ε γ} {x y z : List α} {b : β}
    {k r r' : List ε} (hp : p x = ⟨some (b, k), y, r⟩) (hq : q y = .fail z r') :
    seq p q x = .fail x (r ++ r') := by simp only [seq, hp, hq, Reply.fail]

theorem alt_left {p q : Parser α ε β} {x : List α} (hp : (p x).ok = true) : alt p q x = p x := by
  rcases h : p x with ⟨_ | hit, rest, ran⟩
  · simp [h, Reply.ok] at hp
  · simp only [alt, h]

theorem alt_right {p q : Parser α ε β} {x y : List α} {r : List ε} (hp : p x = .fail y r) :
    alt p q x = (q y).after r := by simp only [alt, hp, Reply.fail]

theorem alts_fail {ps : List (Parser α ε β)} {x : List α} (h : ∀ p ∈ ps, p x = .fail x []) :
    alts ps x = .fail x [] := by
  induction ps with
  | nil => rfl
  | cons p ps ih =>
    have hps := ih (fun p' hp' => h p' (List.mem_cons_of_mem p hp'))
    simp only [alts, alt_right (h p List.mem_cons_self), hps, Reply.after_nil]

theorem alts_only {q : Parser α ε β} {before behind : List (Parser α ε β)} {x : List α}
    (hbefore : ∀ p ∈ before, p x = .fail x []) (hbehind : ∀ p ∈ behind, p x = .fail x [])
    (hq : (q x).ok = true ∨ ∃ r, q x = .fail x r) : alts (before ++ q :: behind) x = q x := by
  have hrest := alts_fail hbehind
  induction before with
  | nil =>
    rcases hq with hq | ⟨r, hq⟩
    · exact alt_left hq
    · rw [List.nil_append, alts, alt_right hq, hrest, hq]
      simp [Reply.fail, Reply.after]
  | cons p ps ih =>
    have hps := ih (fun p' hp' => hbefore p' (List.mem_cons_of_mem p hp'))
    rw [List.cons_append, alts, alt_right (hbefore p List.mem_cons_self), hps, Reply.after_nil]

theorem opt_ok {p : Parser α ε β} {x y : List α} {b : β} {k r : List ε}
    (hp : p x = ⟨some (b, k), y, r⟩) : opt p x = ⟨some ((), k), y, r⟩ := by simp only [opt, hp]

theorem opt_fail {p : Parser α ε β} {x y : List α} {r : List ε} (hp : p x = .fail y r) :
    opt p x = ⟨some ((), []), y, r⟩ := by simp only [opt, hp, Reply.fail]

theorem act_ok {p : Parser α ε β} {f : β → ε} {x y : List α} {b : β} {k r : List ε}
    (hp : p x = ⟨some (b, k), y, r⟩) :
    act p f x = ⟨some (b, k ++ [f b]), y, r ++ [f b]⟩ := by simp only [act, hp]

theorem act_fail {p : Parser α ε β} {f : β → ε} {x y : List α} {r : List ε}
    (hp : p x = .fail y r) : act p f x = .fail y r := by simp only [act, hp, Reply.fail]

theorem perform_append {σ : Type} (as bs : List (σ → σ)) (s : σ) :
    perform (as ++ bs) s = perform bs (perform as s) := List.foldl_append

/-! ## Repetition -/

def Consumes (p : Parser α ε β) : Prop :=
  ∀ x y b k r, p x = ⟨some (b, k), y, r⟩ → y.length < x.length

theorem loop_fuel {p : Parser α ε β} (hc : Consumes p) {n m : Nat} {x : List α}
    (hn : x.length < n) (hm : x.length < m) : loop p n x = loop p m x := by
  induction n generalizing m x with
  | zero => omega
  | succ n ih =>
    cases m with
    | zero => omega
    | succ m =>
      rcases h : p x with ⟨_ | ⟨b, k⟩, y, r⟩
      · simp only [loop, h]
      · have hlt := hc _ _ _ _ _ h
        simp only [loop, h, ih (m := m) (x := y) (by omega) (by omega)]

theorem star_stop {p : Parser α ε β} {x y : List α} {r : List ε} (h : p x = .fail y r) :
    star p x = ⟨some ((), []), y, r⟩ := by simp only [star, loop, h, Reply.fail]

theorem star_step {p : Parser α ε β} (hc : Consumes p) {x y : List α} {b : β} {k r : List ε}
    (h : p x = ⟨some (b, k), y, r⟩) :
    star p x = ⟨some ((), k ++ (star p y).kept), (star p y).first, r ++ (star p y).ran⟩ := by
  have hlt := hc _ _ _ _ _ h
  simp only [star, loop, h, loop_fuel hc hlt (Nat.lt_succ_self y.length)]

theorem plus_fail {p : Parser α ε β} {x y : List α} {r : List ε} (h : p x = .fail y r) :
    plus p x = .fail y r := by simp only [plus, h, Reply.fail]

theorem plus_eq_star {p : Parser α ε β} (hc : Consumes p) {x y : List α} {b : β} {k r : List ε}
    (h : p x = ⟨some (b, k), y, r⟩) : plus p x = star p x := by
  rw [star_step hc h]
  simp only [plus, h]

/-- The run rule: a parser that reads each item with its own actions, and fails at what
follows the items, reads the whole list and stops there. The actions of the failed
attempt have run as well. -/
theorem star_run {ι : Type} {p : Parser α ε β} (hc : Consumes p) (render : ι → List α)
    (attr : ι → β) (acts : ι → List ε) {w y : List α} {stale : List ε}
    (hitem : ∀ i z, p (render i ++ z) = ⟨some (attr i, acts i), z, acts i⟩)
    (hstop : p w = .fail y stale) (items : List ι) :
    star p (items.flatMap render ++ w) =
      ⟨some ((), items.flatMap acts), y, items.flatMap acts ++ stale⟩ := by
  induction items with
  | nil => simpa using star_stop hstop
  | cons i items ih =>
    have hi := hitem i (items.flatMap render ++ w)
    rw [List.flatMap_cons, List.append_assoc, star_step hc hi, ih]
    simp [List.append_assoc]

end X3
