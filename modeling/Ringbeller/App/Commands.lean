import Ringbeller.App.AtCops
import Ringbeller.App.Calls
import Ringbeller.Framing.Lines

/-!
# The commands of the library

All the requests that `messages/` can make, how a modem tells them apart, and what it receives of a
list of them that is executed.
-/

namespace Ringbeller
set_option autoImplicit false

open Asio Framing Script Session

def makeAti : Request := basicRequest (ascii "I") []

def makeAtCusdWrite (params : List UInt8) : Request := writeRequest (ascii "CUSD") params

def makeAtCopsTest : Request := ⟨false, true, false, false, false, ascii "COPS", []⟩

inductive Command where
  | at
  | ata
  | atd (params : List UInt8)
  | ath
  | ati
  | atCmgfWrite (params : List UInt8)
  | atCmgsWrite (params : List UInt8)
  | atCnmiWrite (params : List UInt8)
  | atCopsTest
  | atCopsRead
  | atCscsWrite (params : List UInt8)
  | atCusdWrite (params : List UInt8)
  | atQcfgWrite (params : List UInt8)
  | atQpcmvWrite (params : List UInt8)
  deriving Repr, DecidableEq

namespace Command

def request : Command → Request
  | .at => makeAt
  | ata => makeAta
  | atd params => makeAtd params
  | ath => makeAth
  | ati => makeAti
  | atCmgfWrite params => makeAtCmgfWrite params
  | atCmgsWrite params => makeAtCmgsWrite params
  | atCnmiWrite params => makeAtCnmiWrite params
  | atCopsTest => makeAtCopsTest
  | atCopsRead => makeAtCopsRead
  | atCscsWrite params => makeAtCscsWrite params
  | atCusdWrite params => makeAtCusdWrite params
  | atQcfgWrite params => makeAtQcfgWrite params
  | atQpcmvWrite params => makeAtQpcmvWrite params

def name : Command → List UInt8
  | .at => []
  | ata => ascii "A"
  | atd _ => ascii "D"
  | ath => ascii "H"
  | ati => ascii "I"
  | atCmgfWrite _ => ascii "+CMGF="
  | atCmgsWrite _ => ascii "+CMGS="
  | atCnmiWrite _ => ascii "+CNMI="
  | atCopsTest => ascii "+COPS=?"
  | atCopsRead => ascii "+COPS?"
  | atCscsWrite _ => ascii "+CSCS="
  | atCusdWrite _ => ascii "+CUSD="
  | atQcfgWrite _ => ascii "+QCFG="
  | atQpcmvWrite _ => ascii "+QPCMV="

def params : Command → List UInt8
  | atd params => params
  | atCmgfWrite params => params
  | atCmgsWrite params => params
  | atCnmiWrite params => params
  | atCscsWrite params => params
  | atCusdWrite params => params
  | atQcfgWrite params => params
  | atQpcmvWrite params => params
  | _ => []

/-- What is written of it in front of CR LF. -/
def line (c : Command) : List UInt8 := ascii "AT" ++ (c.name ++ c.params)

theorem toString_request (c : Command) : toString c.request = c.line ++ [cr, lf] := by
  cases c <;> simp [request, line, name, params, toString] <;> rfl

end Command

/-! ## Telling commands apart -/

/-- The commands that have parameters, by what stands in front of these. -/
def parametric : List (List UInt8 × (List UInt8 → Command)) :=
  [(ascii "D", .atd), (ascii "+CMGF=", .atCmgfWrite), (ascii "+CMGS=", .atCmgsWrite),
    (ascii "+CNMI=", .atCnmiWrite), (ascii "+CSCS=", .atCscsWrite), (ascii "+CUSD=", .atCusdWrite),
    (ascii "+QCFG=", .atQcfgWrite), (ascii "+QPCMV=", .atQpcmvWrite)]

def plain : List Command := [.at, .ata, .ath, .ati, .atCopsTest, .atCopsRead]

def commandOf (line : List UInt8) : Option Command :=
  if ascii "AT" <+: line then
    let text := line.drop 2
    (plain.find? fun c => c.name = text).or
      (parametric.findSome? fun w =>
        if w.1 <+: text then some (w.2 (text.drop w.1.length)) else none)
  else none

theorem plain_params : ∀ c ∈ plain, c.params = [] := by decide

theorem parametric_line {w : List UInt8 × (List UInt8 → Command)} (hw : w ∈ parametric)
    (params : List UInt8) : (w.2 params).line = ascii "AT" ++ (w.1 ++ params) := by
  simp only [parametric, List.mem_cons, List.not_mem_nil, or_false] at hw
  rcases hw with rfl | rfl | rfl | rfl | rfl | rfl | rfl | rfl <;> rfl

theorem commandOf_line (c : Command) : commandOf c.line = some c := by
  cases c <;> rfl

theorem commandOf_eq_some {line : List UInt8} {c : Command} :
    commandOf line = some c ↔ line = c.line := by
  constructor
  · intro h
    unfold commandOf at h
    split at h
    · next hat =>
      obtain ⟨text, rfl⟩ := hat
      have hdrop : (ascii "AT" ++ text).drop 2 = text := rfl
      simp only [hdrop] at h
      rcases Option.or_eq_some_iff.mp h with hplain | ⟨_, hparams⟩
      · have hmem := List.mem_of_find?_eq_some hplain
        have hname : c.name = text := by simpa using List.find?_some hplain
        rw [Command.line, hname, plain_params c hmem, List.append_nil]
      · obtain ⟨w, hw, hc⟩ := List.exists_of_findSome?_eq_some hparams
        split at hc
        · next hstarts =>
          obtain ⟨params, rfl⟩ := hstarts
          rw [List.drop_left] at hc
          rw [← Option.some.inj hc, parametric_line hw]
        · cases hc
    · cases h
  · rintro rfl
    exact commandOf_line c

/-- A line is understood as a command exactly when it is what the library writes for it, so no two
commands are written alike. -/
theorem commandOf_iff (line : List UInt8) (c : Command) :
    commandOf line = some c ↔ line ++ [cr, lf] = toString c.request := by
  rw [c.toString_request, List.append_left_inj]
  exact commandOf_eq_some

/-! ## What a modem receives -/

/-- The lines that have been received as a whole, each as the command it is understood as, and what
has come of the next one. -/
def decodeLines (x : List UInt8) : List (Option Command) × List UInt8 :=
  ((lines [cr, lf] x).1.map commandOf, (lines [cr, lf] x).2)

theorem infix_behind {p x : List UInt8} (hp : cr ∉ p) :
    [cr, lf] <:+: p ++ x ↔ [cr, lf] <:+: x := by
  induction p with
  | nil => rfl
  | cons a p ih =>
    obtain ⟨ha, hp⟩ := not_or.mp (mt List.mem_cons.mpr hp)
    rw [List.cons_append, List.infix_cons_iff, ih hp]
    constructor
    · rintro (h | h)
      · exact absurd (List.cons_prefix_cons.mp h).1 ha
      · exact h
    · exact Or.inr

theorem Command.name_crFree (c : Command) : cr ∉ c.name := by
  cases c <;> simp only [name] <;> decide

theorem Command.line_infix (c : Command) : [cr, lf] <:+: c.line ↔ [cr, lf] <:+: c.params := by
  rw [Command.line, infix_behind (by decide), infix_behind c.name_crFree]

theorem map_commandOf {fs : List (List UInt8)} {cs : List Command} :
    fs.map commandOf = cs.map some ↔ fs = cs.map Command.line := by
  constructor
  · intro h
    induction fs generalizing cs with
    | nil =>
      rw [List.map_eq_nil_iff.mp h.symm]
      rfl
    | cons f fs ih =>
      obtain ⟨c, cs, rfl⟩ : ∃ c cs', cs = c :: cs' := by
        cases cs with
        | nil => cases h
        | cons c cs => exact ⟨c, cs, rfl⟩
      obtain ⟨hf, hfs⟩ := List.cons.inj h
      rw [commandOf_eq_some.mp hf, ih hfs]
      rfl
  · rintro rfl
    rw [List.map_map, show commandOf ∘ Command.line = some from funext commandOf_line]

/-- The lines of commands, and a part of a next one, are understood as these commands exactly when
no line break stands in their parameters, nor in the part. -/
theorem decodeLines_iff (cs : List Command) (rest : List UInt8) :
    decodeLines (cs.flatMap (fun c => toString c.request) ++ rest) = (cs.map some, rest) ↔
      (∀ c ∈ cs, ¬ [cr, lf] <:+: c.params) ∧ ¬ [cr, lf] <:+: rest := by
  have hbytes : cs.flatMap (fun c => toString c.request) =
      (cs.map Command.line).flatMap (· ++ [cr, lf]) := by
    rw [List.flatMap_map]
    congr 1
    funext c
    exact c.toString_request
  have hframed := lines_framed_iff (d := [cr, lf]) (by simp) (unbordered_pair (by decide))
    (cs.map Command.line) rest
  have hpair : ∀ x : List (List UInt8) × List UInt8,
      (x.1.map commandOf, x.2) = (cs.map some, rest) ↔ x = (cs.map Command.line, rest) := by
    intro x
    rw [Prod.mk.injEq, map_commandOf, Prod.ext_iff]
  rw [decodeLines, hbytes, hpair, hframed, List.forall_mem_map]
  simp only [Command.line_infix]

section Executes
variable {η : Type}

/-- The exchanges of commands that are executed one after the other. -/
def attempted (cs : List Command) (s : Session η) : List (Exchange η) :=
  (started (fun c : Command => execute c.request) cs s).map fun x => ⟨x.1.request, x.2⟩

/-- How many of the lines the port has accepted as a whole. -/
def completed (xs : List (Exchange η)) : Nat := xs.countP fun x => !x.unwritten

/-- A part of the line of the first command, but not all of it. -/
def Begun (cs : List Command) (x : List UInt8) : Prop :=
  x = [] ∨ ∃ c cs', cs = c :: cs' ∧ x <+: toString c.request ∧ x ≠ toString c.request

theorem written_sent (command : Request) (s : Session η) :
    (execute command s).2.written = s.written ++ (⟨command, s⟩ : Exchange η).sent := by
  simp only [written, execute_log, List.flatMap_append, List.flatMap_cons]
  split <;> simp

theorem attempted_cons (c : Command) (cs : List Command) (s : Session η) :
    attempted (c :: cs) s = ⟨c.request, s⟩ ::
      if (execute c.request s).1 = some 0 then attempted cs (execute c.request s).2 else [] := by
  rw [attempted, started]
  split <;> rfl

/-- What a list of commands writes: the lines that have been completed, and a part of the next. -/
structure Wrote (cs : List Command) (s : Session η) (r : Option Int × Session η)
    (rest : List UInt8) : Prop where
  begun : Begun (cs.drop (completed (attempted cs s))) rest
  written : r.2.written = s.written ++
    ((cs.take (completed (attempted cs s))).flatMap (fun c => toString c.request) ++ rest)
  passed : r.1 = some 0 → completed (attempted cs s) = cs.length ∧ rest = []

theorem wrote_executes (cs : List Command) (s : Session η) :
    ∃ rest, Wrote cs s (sequence (cs.map fun c => execute c.request) s) rest := by
  induction cs generalizing s with
  | nil => exact ⟨[], Or.inl rfl, (List.append_nil _).symm, fun _ => ⟨rfl, rfl⟩⟩
  | cons c cs ih =>
    obtain ⟨x, hx⟩ : ∃ x : Exchange η, x = ⟨c.request, s⟩ := ⟨_, rfl⟩
    have hsent := written_sent c.request s
    have hline := write_sent (toString c.request) s.puts
    rw [← hx] at hsent
    cases hun : x.unwritten with
    | true =>
      have hstop : (execute c.request s).1 ≠ some 0 := execute_stops (by
        rw [← hx, Exchange.failed, hun]
        rfl)
      have hnone : completed (attempted (c :: cs) s) = 0 := by
        rw [attempted_cons, if_neg hstop, ← hx]
        simp [completed, hun]
      refine ⟨x.sent, ?_, ?_, fun h => ?_⟩
      · rw [hnone, hx]
        refine Or.inr ⟨c, cs, rfl, hline.1, fun hall => ?_⟩
        have hec : (Asio.write (toString c.request) s.puts).ec = false := hline.2.mpr hall
        rw [hx] at hun
        exact Bool.false_ne_true (hec.symm.trans hun)
      · rw [List.map_cons, sequence_stop hstop, hsent, hnone]
        rfl
      · rw [List.map_cons, sequence_stop hstop] at h
        exact absurd h hstop
    | false =>
      have hall : x.sent = toString c.request := by
        rw [hx] at hun ⊢
        exact hline.2.mp hun
      rw [hall] at hsent
      by_cases hgo : (execute c.request s).1 = some 0
      · obtain ⟨rest, hbegun, hwritten, hpassed⟩ := ih (execute c.request s).2
        have hone : completed (attempted (c :: cs) s) =
            completed (attempted cs (execute c.request s).2) + 1 := by
          rw [attempted_cons, if_pos hgo, ← hx]
          simp [completed, hun]
        refine ⟨rest, ?_, ?_, ?_⟩
        · rw [hone, List.drop_succ_cons]
          exact hbegun
        · rw [List.map_cons, sequence_go hgo, hwritten, hsent, hone, List.take_succ_cons,
            List.flatMap_cons]
          simp only [List.append_assoc]
        · rw [List.map_cons, sequence_go hgo, hone, List.length_cons, Nat.add_right_cancel_iff]
          exact hpassed
      · have hone : completed (attempted (c :: cs) s) = 1 := by
          rw [attempted_cons, if_neg hgo, ← hx]
          simp [completed, hun]
        refine ⟨[], Or.inl rfl, ?_, fun h => ?_⟩
        · rw [List.map_cons, sequence_stop hgo, hsent, hone]
          simp
        · rw [List.map_cons, sequence_stop hgo] at h
          exact absurd h hgo

end Executes

/-- However the port cuts or ends the writes and the reads: what the commands that are executed have
written is the lines that have been completed and at most a part of the next one. A modem that takes
its input line by line understands just these commands, and has just this part left, exactly when no
line break stands in the parameters that it has received. -/
theorem executes_decoded (cs : List Command) (port : Port) :
    let s : Session Unit := .start port
    let r := sequence (cs.map fun c => execute c.request) s
    let k := completed (attempted cs s)
    ∃ rest, r.2.written = (cs.take k).flatMap (fun c => toString c.request) ++ rest ∧
      Begun (cs.drop k) rest ∧ (r.1 = some 0 → k = cs.length ∧ rest = []) ∧
      (decodeLines r.2.written = ((cs.take k).map some, rest) ↔
        (∀ c ∈ cs.take k, ¬ [cr, lf] <:+: c.params) ∧ ¬ [cr, lf] <:+: rest) := by
  intro s r k
  obtain ⟨rest, hbegun, hwritten, hpassed⟩ := wrote_executes cs s
  have hstart : s.written = [] := rfl
  rw [hstart, List.nil_append] at hwritten
  refine ⟨rest, hwritten, hbegun, hpassed, ?_⟩
  rw [hwritten]
  exact decodeLines_iff (cs.take k) rest

end Ringbeller
