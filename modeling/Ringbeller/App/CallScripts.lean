import Ringbeller.App.EventLoop
import Ringbeller.App.Scenarios

/-!
# The scripts of the call scenarios

Both scenarios query the configuration, wait for +QCFG, and then execute a fixed list of
commands; `run_receive_vcall` waits once more before the last of them.
-/

namespace Ringbeller
set_option autoImplicit false

open Script

section Stopped
variable {η : Type} {p : Program η} {port : Port} {n : Nat}

theorem Program.Reaches.stopped {past : List (Statement η)} {s : Session η}
    (h : p.Reaches port n (past ++ [.run]) s) : s.stopped = true := by
  obtain ⟨t, _, hrun⟩ := h.last
  have hgo : (Ringbeller.run p.handle n t).1 = some 0 := congrArg Prod.fst hrun
  have hs : s = (Ringbeller.run p.handle n t).2 := (congrArg Prod.snd hrun).symm
  rw [hs]
  cases ht : t.stopped with
  | true => simp [Ringbeller.run, ht]
  | false => rw [(run_goes_on hgo ht).2]

end Stopped

namespace VoiceCall

variable {port : Port} {n : Nat}

theorem query_exchanges (p : Program Handler) (port : Port) (n : Nat) :
    p.exchangesFrom port n query (.start port) =
      if port.opens then [⟨queryUsbCfg, .start port⟩] else [] := by
  rw [query, Program.exchangesFrom_openPort]
  cases hx : (⟨queryUsbCfg, .start port⟩ : Exchange Handler).failed with
  | true => rw [command, Program.exchangesFrom_failed (f := fun _ => queryUsbCfg) hx]
  | false =>
    rw [command, Program.exchangesFrom_passed (f := fun _ => queryUsbCfg) hx,
      Program.exchangesFrom_start, Program.exchangesFrom_last]

theorem reaches_query {p : Program Handler} {s : Session Handler}
    (h : p.Reaches port n query s) :
    port.opens = true ∧ (⟨queryUsbCfg, .start port⟩ : Exchange Handler).failed = false := by
  have hopens : port.opens = true := by
    have hopen : p.Reaches port n ([.openPort] ++ query.tail) s := h
    obtain ⟨t, ht, _⟩ := hopen.before
    cases ho : port.opens with
    | true => rfl
    | false => simp [Program.Reaches, Script.sequence, Program.step, openPort, ho] at ht
  refine ⟨hopens, ?_⟩
  have hexecute : p.Reaches port n
      ([.openPort, command queryUsbCfg] ++ [.start (·.asyncRead .qcfgReadHandler), .run]) s := h
  obtain ⟨t, ht, _⟩ := hexecute.before
  have hquery : p.Reaches port n ([.openPort] ++ [command queryUsbCfg]) t := ht
  obtain ⟨u, hu, hstep⟩ := hquery.last
  obtain rfl : Session.start port = u := by
    simp [Program.Reaches, Script.sequence, Program.step, openPort, hopens] at hu
    exact hu
  exact execute_goes_on.mp (congrArg Prod.fst hstep)

/-- The exchanges of a run are the query and, when the wait ends, those that follow the rest of
the script. -/
inductive Scripted (p : Program Handler) (port : Port) (n : Nat) (rest : List Request) : Prop where
  | waiting (hwait : ∀ s, ¬ p.Reaches port n query s)
      (h : p.exchanges port n = if port.opens then [⟨queryUsbCfg, .start port⟩] else [])
  | waited (s : Session Handler) (xs : List (Exchange Handler))
      (hquery : (⟨queryUsbCfg, .start port⟩ : Exchange Handler).failed = false)
      (hwait : p.Reaches port n query s)
      (h : p.exchanges port n = ⟨queryUsbCfg, .start port⟩ :: ⟨makeAtQcfgWrite s.usbCfg, s⟩ :: xs)
      (hxs : Follows (switchOn s.usbCfg ++ rest) (⟨makeAtQcfgWrite s.usbCfg, s⟩ :: xs))

theorem scripted_of {p : Program Handler} {rest : List Request} {behind : List (Statement Handler)}
    (hp : p.statements = query ++ .execute (fun s => makeAtQcfgWrite s.usbCfg) :: behind)
    (h : ∀ s, p.Reaches port n query s → Follows (switchOn s.usbCfg ++ rest)
      (p.exchangesFrom port n (.execute (fun s => makeAtQcfgWrite s.usbCfg) :: behind) s)) :
    Scripted p port n rest := by
  by_cases hs : ∃ s, p.Reaches port n query s
  · obtain ⟨s, hs⟩ := hs
    obtain ⟨hopens, hquery⟩ := reaches_query hs
    have hxs := hs.exchanges hp
    rw [query_exchanges, hopens, if_pos rfl, List.singleton_append] at hxs
    obtain ⟨xs, heq⟩ : ∃ xs, p.exchangesFrom port n
        (.execute (fun s => makeAtQcfgWrite s.usbCfg) :: behind) s =
          ⟨makeAtQcfgWrite s.usbCfg, s⟩ :: xs :=
      Program.exchangesFrom_head fun s => makeAtQcfgWrite s.usbCfg
    have hfollows := h s hs
    rw [heq] at hxs hfollows
    exact .waited s xs hquery hs hxs hfollows
  · have hs' : ∀ s, ¬ p.Reaches port n query s := fun s h => hs ⟨s, h⟩
    apply Scripted.waiting hs'
    rw [(Program.run_of_not_reaches hs' hp).2, query_exchanges]

theorem makeProgram_scripted (da : List UInt8) (port : Port) (n : Nat) :
    Scripted (makeProgram da) port n (call ++ [switchOff]) :=
  have hp : (makeProgram da).statements = query ++ dial := rfl
  scripted_of hp fun _ _ =>
    Program.exchangesFrom_execute (f := fun s => makeAtQcfgWrite s.usbCfg) fun _ =>
      Program.follows_commands
        ([makeAtQpcmvWrite (ascii "1,2"), makeAtCscsWrite (ascii "\"GSM\"")] ++ call ++
          [switchOff]) _

theorem receiveProgram_scripted (port : Port) (n : Nat) :
    Scripted receiveProgram port n [switchOff] := by
  have hp : receiveProgram.statements = query ++ answer := rfl
  apply scripted_of hp
  intro s hs
  apply Program.exchangesFrom_execute (f := fun s => makeAtQcfgWrite s.usbCfg)
  intro _
  apply Program.exchangesFrom_execute (f := fun _ => makeAtQpcmvWrite (ascii "1,2"))
  intro _
  refine Program.exchangesFrom_execute (f := fun _ => makeAtCscsWrite (ascii "\"GSM\""))
    fun _ => ?_
  have hwait : receiveProgram.Reaches port n (query.dropLast ++ [.run]) s := hs
  have hstopped := hwait.stopped
  rw [Program.exchangesFrom_start, Program.exchangesFrom_run
    (by simp [Session.asyncRead, execute_frame, hstopped])]
  exact Program.follows_commands [switchOff] _

end VoiceCall

end Ringbeller
