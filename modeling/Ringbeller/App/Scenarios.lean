import Ringbeller.App.AtCops
import Ringbeller.App.Sms
import Ringbeller.App.VoiceCall

/-!
# The statements of the scenarios

Each scenario as a list of statements, so that it can be said which of them a run starts and
in which state. An exchange is a call of `execute`: a command and the reply to it.
-/

namespace Ringbeller
set_option autoImplicit false

open Script

variable {η : Type}

/-! ## Exchanges -/

structure Exchange (η : Type) where
  command : Request
  before : Session η
  deriving Repr, DecidableEq

namespace Exchange

def unwritten (x : Exchange η) : Bool := (x.before.write x.command).1

/-- What the port has accepted of the line. -/
def sent (x : Exchange η) : List UInt8 := (Ringbeller.write x.command x.before.puts).sent

def reply (x : Exchange η) : ReadRecord := (read ⟨x.before.turns, .new, x.before.response⟩).1

/-- The write or the read has completed with an error. -/
def failed (x : Exchange η) : Bool := x.unwritten || x.reply.ec

end Exchange

theorem execute_status (command : Request) (s : Session η) :
    (execute command s).1 = some (if (⟨command, s⟩ : Exchange η).failed then -1 else 0) := by
  cases hec : (s.write command).1 with
  | true =>
    rw [execute_unwritten hec, Exchange.failed, Exchange.unwritten, hec]
    rfl
  | false =>
    rw [execute_written hec, Exchange.failed, Exchange.unwritten, hec]
    rfl

theorem execute_goes_on {command : Request} {s : Session η} :
    (execute command s).1 = some 0 ↔ (⟨command, s⟩ : Exchange η).failed = false := by
  rw [execute_status]
  cases (⟨command, s⟩ : Exchange η).failed <;> simp

theorem execute_failed {command : Request} {s : Session η}
    (h : (⟨command, s⟩ : Exchange η).failed = true) :
    execute command s = (some (-1), (execute command s).2) := by
  refine Prod.ext ?_ rfl
  rw [execute_status, h]
  rfl

theorem execute_stops {command : Request} {s : Session η}
    (h : (⟨command, s⟩ : Exchange η).failed = true) : (execute command s).1 ≠ some 0 := by
  intro h0
  rw [execute_goes_on.mp h0] at h
  cases h

theorem execute_log (command : Request) (s : Session η) :
    (execute command s).2.log = s.log ++ .sent (⟨command, s⟩ : Exchange η).sent ::
      if (⟨command, s⟩ : Exchange η).unwritten then []
      else [.read .execute (⟨command, s⟩ : Exchange η).reply] := by
  cases hec : (s.write command).1 with
  | true =>
    rw [execute_unwritten hec, Exchange.unwritten, hec, if_pos rfl]
    rfl
  | false =>
    rw [execute_written hec, Exchange.unwritten, hec, if_neg Bool.false_ne_true]
    exact List.append_assoc s.log [_] [_]

/-- Exchanges that follow a list of commands: the first that fails is the last. -/
inductive Follows : List Request → List (Exchange η) → Prop where
  | nil : Follows [] []
  | failed (x : Exchange η) (commands : List Request) (hx : x.failed = true) :
      Follows (x.command :: commands) [x]
  | passed (x : Exchange η) {commands : List Request} {xs : List (Exchange η)}
      (hx : x.failed = false) (h : Follows commands xs) : Follows (x.command :: commands) (x :: xs)

section Follows
variable {commands past behind : List Request} {xs : List (Exchange η)}

theorem Follows.in_order (h : Follows commands xs) :
    (xs.map Exchange.command).IsPrefix commands := by
  induction h with
  | nil => exact List.prefix_rfl
  | failed x commands _ => exact ⟨commands, rfl⟩
  | passed x _ _ ih => exact List.cons_prefix_cons.mpr ⟨rfl, ih⟩

theorem Follows.mem (h : Follows commands xs) {x : Exchange η} (hx : x ∈ xs) :
    x.command ∈ commands :=
  h.in_order.subset (List.mem_map_of_mem hx)

theorem Follows.head {command : Request} {x : Exchange η}
    (h : Follows (command :: commands) (x :: xs)) :
    x.failed = false ∧ Follows commands xs ∨ x.failed = true ∧ xs = [] := by
  cases h with
  | failed _ _ hx => exact Or.inr ⟨hx, rfl⟩
  | passed _ hx h => exact Or.inl ⟨hx, h⟩

theorem Follows.split (h : Follows (past ++ behind) xs) : ∃ ys zs, xs = ys ++ zs ∧
    Follows past ys ∧ ((∀ y ∈ ys, y.failed = false) → Follows behind zs) ∧
    ((¬ ∀ y ∈ ys, y.failed = false) → zs = []) := by
  induction past generalizing xs with
  | nil => exact ⟨[], xs, rfl, .nil, fun _ => h, fun hn => by simp at hn⟩
  | cons command past ih =>
    cases h with
    | failed x _ hx =>
      exact ⟨[x], [], rfl, .failed x past hx, fun hall => by simp [hx] at hall, fun _ => rfl⟩
    | passed x hx h =>
      obtain ⟨ys, zs, rfl, hys, hpassed, hfailed⟩ := ih h
      refine ⟨x :: ys, zs, rfl, .passed x hx hys, ?_⟩
      simp only [List.forall_mem_cons, hx, true_and]
      exact ⟨hpassed, hfailed⟩

end Follows

/-! ## Programs -/

inductive Statement (η : Type) where
  | openPort
  | execute (command : Session η → Request)
  | start (f : Session η → Session η)
  | run

def command (msg : Request) : Statement η := .execute fun _ => msg

structure Program (η : Type) where
  handle : η → Bool → Nat → Session η → Session η
  statements : List (Statement η)

namespace Program

def step (p : Program η) (port : Port) (n : Nat) : Statement η → Step (Session η)
  | .openPort => openPort port
  | .execute command => fun s => Ringbeller.execute (command s) s
  | .start f => does f
  | .run => Ringbeller.run p.handle n

def run (p : Program η) (port : Port) (n : Nat) : Option Int × Session η :=
  sequence (p.statements.map (p.step port n)) (.start port)

/-- The statements `past` of a run have gone on, and `s` is the state behind them. -/
def Reaches (p : Program η) (port : Port) (n : Nat) (past : List (Statement η))
    (s : Session η) : Prop :=
  sequence (past.map (p.step port n)) (.start port) = (some 0, s)

def exchange (x : Statement η × Session η) : Option (Exchange η) :=
  match x.1 with
  | .execute command => some ⟨command x.2, x.2⟩
  | _ => none

def exchangesFrom (p : Program η) (port : Port) (n : Nat) (statements : List (Statement η))
    (s : Session η) : List (Exchange η) :=
  (started (p.step port n) statements s).filterMap exchange

/-- The exchanges that a run starts, in order. -/
def exchanges (p : Program η) (port : Port) (n : Nat) : List (Exchange η) :=
  p.exchangesFrom port n p.statements (.start port)

section Exchanges
variable {p : Program η} {port : Port} {n : Nat} {past behind : List (Statement η)}
  {s t : Session η}

theorem Reaches.before (h : p.Reaches port n (past ++ behind) t) :
    ∃ s, p.Reaches port n past s ∧ sequence (behind.map (p.step port n)) s = (some 0, t) := by
  rw [Reaches, List.map_append] at h
  by_cases h0 : (sequence (past.map (p.step port n)) (.start port)).1 = some 0
  · rw [sequence_append h0] at h
    exact ⟨_, Prod.ext h0 rfl, h⟩
  · rw [sequence_append_stop h0] at h
    exact absurd (congrArg Prod.fst h) h0

theorem Reaches.last {i : Statement η} (h : p.Reaches port n (past ++ [i]) t) :
    ∃ s, p.Reaches port n past s ∧ p.step port n i s = (some 0, t) := by
  obtain ⟨s, hs, ht⟩ := h.before
  exact ⟨s, hs, by rwa [List.map_singleton, sequence_singleton] at ht⟩

theorem Reaches.append (h : p.Reaches port n past s)
    (ht : sequence (behind.map (p.step port n)) s = (some 0, t)) :
    p.Reaches port n (past ++ behind) t := by
  have hgo : (sequence (past.map (p.step port n)) (.start port)).1 = some 0 := congrArg Prod.fst h
  rw [Reaches, List.map_append, sequence_append hgo, h, ht]

theorem Reaches.run (h : p.Reaches port n past s) (hp : p.statements = past ++ behind) :
    p.run port n = sequence (behind.map (p.step port n)) s := by
  have hgo : (sequence (past.map (p.step port n)) (.start port)).1 = some 0 := congrArg Prod.fst h
  rw [Program.run, hp, List.map_append, sequence_append hgo, h]

theorem Reaches.exchanges (h : p.Reaches port n past s) (hp : p.statements = past ++ behind) :
    p.exchanges port n =
      p.exchangesFrom port n past (.start port) ++ p.exchangesFrom port n behind s := by
  rw [Program.exchanges, hp, exchangesFrom, started_append, List.filterMap_append, h, if_pos rfl]
  rfl

theorem run_of_not_reaches (h : ∀ s, ¬ p.Reaches port n past s)
    (hp : p.statements = past ++ behind) :
    p.run port n = sequence (past.map (p.step port n)) (.start port) ∧
      p.exchanges port n = p.exchangesFrom port n past (.start port) := by
  have hstop : (sequence (past.map (p.step port n)) (.start port)).1 ≠ some 0 := fun h0 =>
    h _ (Prod.ext h0 rfl)
  rw [Program.run, Program.exchanges, hp, List.map_append, sequence_append_stop hstop,
    exchangesFrom, started_append, if_neg hstop, List.append_nil]
  exact ⟨rfl, rfl⟩

theorem exchangesFrom_failed {f : Session η → Request}
    (h : (⟨f s, s⟩ : Exchange η).failed = true) :
    p.exchangesFrom port n (.execute f :: behind) s = [⟨f s, s⟩] := by
  have hstop : (p.step port n (.execute f) s).1 ≠ some 0 := execute_stops h
  rw [exchangesFrom, started_stop hstop]
  rfl

theorem exchangesFrom_passed {f : Session η → Request}
    (h : (⟨f s, s⟩ : Exchange η).failed = false) :
    p.exchangesFrom port n (.execute f :: behind) s =
      ⟨f s, s⟩ :: p.exchangesFrom port n behind (execute (f s) s).2 := by
  have hgo : (p.step port n (.execute f) s).1 = some 0 := execute_goes_on.mpr h
  rw [exchangesFrom, started_go hgo]
  rfl

theorem exchangesFrom_head (f : Session η → Request) :
    ∃ xs, p.exchangesFrom port n (.execute f :: behind) s = ⟨f s, s⟩ :: xs := by
  cases h : (⟨f s, s⟩ : Exchange η).failed with
  | true => exact ⟨[], exchangesFrom_failed h⟩
  | false => exact ⟨_, exchangesFrom_passed h⟩

theorem exchangesFrom_openPort :
    p.exchangesFrom port n (.openPort :: behind) s =
      if port.opens then p.exchangesFrom port n behind s else [] := by
  have hstep : p.step port n .openPort s = (some (if port.opens then 0 else -1), s) := rfl
  cases h : port.opens with
  | true =>
    rw [h, if_pos rfl] at hstep
    have hgo : (p.step port n .openPort s).1 = some 0 := congrArg Prod.fst hstep
    rw [exchangesFrom, started_go hgo, hstep]
    rfl
  | false =>
    rw [h, if_neg Bool.false_ne_true] at hstep
    rw [exchangesFrom, started_stop (by simp [hstep])]
    rfl

theorem exchangesFrom_start (f : Session η → Session η) :
    p.exchangesFrom port n (.start f :: behind) s = p.exchangesFrom port n behind (f s) := by
  rw [exchangesFrom, started_go rfl]
  rfl

theorem exchangesFrom_run (h : s.stopped = true) :
    p.exchangesFrom port n (.run :: behind) s = p.exchangesFrom port n behind s := by
  have hrun : p.step port n .run s = (some 0, s) := if_pos h
  have hgo : (p.step port n .run s).1 = some 0 := congrArg Prod.fst hrun
  rw [exchangesFrom, started_go hgo, hrun]
  rfl

theorem exchangesFrom_last (s : Session η) : p.exchangesFrom port n [.run] s = [] := by
  rw [exchangesFrom, started_singleton]
  rfl

theorem exchangesFrom_execute {f : Session η → Request} {commands : List Request}
    (h : (⟨f s, s⟩ : Exchange η).failed = false →
      Follows commands (p.exchangesFrom port n behind (execute (f s) s).2)) :
    Follows (f s :: commands) (p.exchangesFrom port n (.execute f :: behind) s) := by
  cases hx : (⟨f s, s⟩ : Exchange η).failed with
  | true =>
    rw [exchangesFrom_failed hx]
    exact .failed ⟨f s, s⟩ commands hx
  | false =>
    rw [exchangesFrom_passed hx]
    exact .passed ⟨f s, s⟩ hx (h hx)

theorem follows_commands (commands : List Request) (s : Session η) :
    Follows commands (p.exchangesFrom port n (commands.map command) s) := by
  induction commands generalizing s with
  | nil => exact .nil
  | cons msg commands ih =>
    exact exchangesFrom_execute (f := fun _ => msg) fun _ => ih _

end Exchanges

end Program

def ReceiveSms.program : Program ReceiveSms.Handler :=
  ⟨handle, .openPort :: setup.map command ++ [.start (·.asyncRead .readHandler), .run]⟩

def SendSms.program (da smsText : List UInt8) : Program SendSms.Handler :=
  ⟨handle smsText,
    [.openPort, command (makeAtCmgfWrite (ascii "1")),
      command (makeAtCscsWrite (ascii "\"GSM\"")),
      .start (·.asyncWrite (makeAtCmgsWrite (ascii "\"" ++ da ++ ascii "\"")) .cmgsWriteHandler),
      .run]⟩

def AtCops.program : Program AtCops.Handler :=
  ⟨handle, [.openPort, .start (·.asyncWrite makeAtCopsRead .writeHandler), .run]⟩

namespace VoiceCall

/-- The commands behind the wait for +QCFG that both scenarios send. -/
def switchOn (usbCfg : List UInt8) : List Request :=
  [makeAtQcfgWrite usbCfg, makeAtQpcmvWrite (ascii "1,2"), makeAtCscsWrite (ascii "\"GSM\"")]

def call : List Request := [makeAtd (ascii "\"{}\";"), makeAth]

def switchOff : Request := makeAtQpcmvWrite (ascii "0")

def queryUsbCfg : Request := makeAtQcfgWrite (ascii "\"USBCFG\"")

def query : List (Statement Handler) :=
  [.openPort, command queryUsbCfg, .start (·.asyncRead .qcfgReadHandler), .run]

/-- What `run_make_vcall` does behind the wait for +QCFG. -/
def dial : List (Statement Handler) :=
  [.execute fun s => makeAtQcfgWrite s.usbCfg, command (makeAtQpcmvWrite (ascii "1,2")),
    command (makeAtCscsWrite (ascii "\"GSM\"")), command (makeAtd (ascii "\"{}\";")),
    command makeAth, command switchOff]

/-- What `run_receive_vcall` does behind the wait for +QCFG. -/
def answer : List (Statement Handler) :=
  [.execute fun s => makeAtQcfgWrite s.usbCfg, command (makeAtQpcmvWrite (ascii "1,2")),
    command (makeAtCscsWrite (ascii "\"GSM\"")), .start (·.asyncRead .callReadHandler), .run,
    command switchOff]

def makeProgram (_da : List UInt8) : Program Handler := ⟨handle, query ++ dial⟩

def receiveProgram : Program Handler := ⟨handle, query ++ answer⟩

end VoiceCall

theorem runReceiveSms_eq (port : Port) (n : Nat) :
    runReceiveSms port n = ReceiveSms.program.run port n := rfl

theorem runSendSms_eq (port : Port) (da smsText : List UInt8) (n : Nat) :
    runSendSms port da smsText n = (SendSms.program da smsText).run port n := rfl

theorem runAtCops_eq (port : Port) (n : Nat) : runAtCops port n = AtCops.program.run port n := rfl

theorem runMakeVcall_eq (port : Port) (da : List UInt8) (n : Nat) :
    runMakeVcall port da n = (VoiceCall.makeProgram da).run port n := rfl

theorem runReceiveVcall_eq (port : Port) (n : Nat) :
    runReceiveVcall port n = VoiceCall.receiveProgram.run port n := rfl

end Ringbeller
