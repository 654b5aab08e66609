import Ringbeller.App.CallScripts

/-!
# Runs and failed exchanges

What a failed exchange does to a run: `execute` returns −1, and every scenario returns that at
once, whatever it has switched on before.
-/

namespace Ringbeller
set_option autoImplicit false

open Asio Script

/-! ## Going on -/

/-- A run goes on behind an exchange when that has had no I/O error, and else ends with it. -/
structure GoesOn {η : Type} (p : Program η) (port : Port) (n : Nat)
    (result : Option Int × Session η) : Prop where
  earlier : ∀ past command behind s, p.Reaches port n (past ++ .execute command :: behind) s →
    ∃ t, p.Reaches port n past t ∧ (⟨command t, t⟩ : Exchange η).failed = false
  next : ∀ past command behind t, p.statements = past ++ .execute command :: behind →
    p.Reaches port n past t → (⟨command t, t⟩ : Exchange η).failed = false →
      p.Reaches port n (past ++ [.execute command]) (execute (command t) t).2
  ended : ∀ past command behind t, p.statements = past ++ .execute command :: behind →
    p.Reaches port n past t → (⟨command t, t⟩ : Exchange η).failed = true →
      result = (some (-1), (execute (command t) t).2)

theorem Program.goesOn {η : Type} (p : Program η) (port : Port) (n : Nat) :
    GoesOn p port n (p.run port n) := by
  constructor
  · intro past command behind s h
    obtain ⟨t, ht, hs⟩ := h.before
    refine ⟨t, ht, execute_goes_on.mp ?_⟩
    by_cases h0 : (p.step port n (.execute command) t).1 = some 0
    · exact h0
    · rw [List.map_cons, sequence_stop h0] at hs
      exact absurd (congrArg Prod.fst hs) h0
  · intro past command behind t _ ht hok
    have hgo : (p.step port n (.execute command) t).1 = some 0 := execute_goes_on.mpr hok
    apply ht.append
    rw [List.map_singleton, sequence_go hgo]
    rfl
  · intro past command behind t hp ht hfailed
    have hrun := execute_failed hfailed
    have hstop : (p.step port n (.execute command) t).1 ≠ some 0 := execute_stops hfailed
    rw [ht.run hp, List.map_cons, sequence_stop hstop]
    exact hrun

/-- `execute` returns 0 exactly when its write and its read complete without an error, whatever
the reply says. In a run of a scenario a command is executed, and the waiting phase entered,
only behind exchanges that have returned 0; another one ends the run with −1. -/
theorem scenarios_go_on (port : Port) (n : Nat) :
    (∀ (η : Type) (command : Request) (s : Session η),
      (execute command s).1 = some (if (⟨command, s⟩ : Exchange η).failed then -1 else 0)) ∧
    (∀ da smsText, GoesOn (SendSms.program da smsText) port n (runSendSms port da smsText n)) ∧
    GoesOn ReceiveSms.program port n (runReceiveSms port n) ∧
    (∀ da, GoesOn (VoiceCall.makeProgram da) port n (runMakeVcall port da n)) ∧
    GoesOn VoiceCall.receiveProgram port n (runReceiveVcall port n) :=
  ⟨fun _ command s => execute_status command s,
    fun da smsText => (SendSms.program da smsText).goesOn port n,
    ReceiveSms.program.goesOn port n, fun da => (VoiceCall.makeProgram da).goesOn port n,
    VoiceCall.receiveProgram.goesOn port n⟩

/-- The modem refuses the first command, and the second one is written all the same. -/
theorem scenarios_go_on_refused :
    let refused : Arrival UInt8 := ⟨ascii "\r\nERROR\r\n", [], by decide⟩
    let line : Put UInt8 := .accepted 100 []
    let port : Port := ⟨true, [.received refused], [line, line]⟩
    ¬ ∀ past x behind, ReceiveSms.program.exchanges port 0 = past ++ x :: behind →
      x.unwritten = false → ∀ y ∈ past, y.reply.after.rc = .ok := by
  intro refused line port h
  have hlen : (ReceiveSms.program.exchanges port 0).map
      (fun x => (x.unwritten, x.reply.after.rc)) = [(false, .error), (false, .error)] := by
    decide +kernel
  obtain ⟨x, y, hxy⟩ := List.length_eq_two.mp (by simpa using congrArg List.length hlen)
  rw [hxy] at hlen
  simp only [List.map_cons, List.map_nil, List.cons.injEq, Prod.mk.injEq] at hlen
  have hok := h [x] y [] hxy hlen.2.1.1 x List.mem_cons_self
  rw [hlen.1.2] at hok
  cases hok

/-! ## Switching off -/

namespace VoiceCall

def setsPcm : Request := makeAtQpcmvWrite (ascii "1,2")

/-- What the exchanges of a run have switched on, they try to switch off, the call first. -/
structure SwitchedOff (xs : List (Exchange Handler)) : Prop where
  pcm : (∃ x ∈ xs, x.command = setsPcm ∧ x.failed = false) → ∃ x ∈ xs, x.command = switchOff
  call : (∃ x ∈ xs, x.command = makeAtd (ascii "\"{}\";")) → ∃ past x behind,
    xs = past ++ x :: behind ∧ x.command = makeAth ∧ ∀ y ∈ past, y.command ≠ switchOff

def setsGsm : Request := makeAtCscsWrite (ascii "\"GSM\"")

end VoiceCall

section Switch
variable {η : Type} {pre mid : List Request} {on off : Request} {xs : List (Exchange η)}

/-- The exchanges of a script pass its command `on`, or they end with that one or before it. -/
theorem Follows.passes_at {rest : List Request} (h : Follows (pre ++ on :: rest) xs)
    (hon : on ∉ pre) :
    (∃ as x bs, xs = as ++ x :: bs ∧ Follows pre as ∧ x.command = on ∧ x.failed = false ∧
      Follows rest bs) ∨
    ((∀ x ∈ xs, x.command ∈ pre ++ [on]) ∧ ∀ x ∈ xs, x.command = on → x.failed = true) := by
  obtain ⟨as, bs, rfl, has, hpassed, hfailed⟩ := h.split
  have haon : ∀ x ∈ as, x.command ≠ on := fun x hx heq => hon (heq ▸ has.mem hx)
  by_cases hall : ∀ x ∈ as, x.failed = false
  · cases hpassed hall with
    | passed x hx hrest => exact Or.inl ⟨as, x, _, rfl, has, rfl, hx, hrest⟩
    | failed x _ hx =>
      apply Or.inr
      constructor
      · intro y hy
        rcases List.mem_append.mp hy with hy | hy
        · exact List.mem_append_left _ (has.mem hy)
        · rw [List.mem_singleton.mp hy]
          exact List.mem_append_right pre (List.mem_singleton_self x.command)
      · intro y hy hc
        rcases List.mem_append.mp hy with hy | hy
        · exact absurd hc (haon y hy)
        · rwa [List.mem_singleton.mp hy]
  · rw [hfailed hall, List.append_nil]
    exact Or.inr ⟨fun x hx => List.mem_append_left _ (has.mem hx),
      fun x hx hc => absurd hc (haon x hx)⟩

/-- The last command is attempted exactly when all those before it pass. -/
theorem Follows.last_attempted (h : Follows (mid ++ [off]) xs) (hoff : off ∉ mid) :
    (∃ x ∈ xs, x.command = off) ↔ ∀ x ∈ xs, x.command ∈ mid → x.failed = false := by
  obtain ⟨ms, os, rfl, hms, hpassed, hfailed⟩ := h.split
  have hmoff : ∀ x ∈ ms, x.command ≠ off := fun x hx heq => hoff (heq ▸ hms.mem hx)
  by_cases hall : ∀ x ∈ ms, x.failed = false
  · have hos := hpassed hall
    constructor
    · intro _ x hx hm
      rcases List.mem_append.mp hx with hx | hx
      · exact hall x hx
      · rw [List.mem_singleton.mp (hos.mem hx)] at hm
        exact absurd hm hoff
    · intro _
      cases hos with
      | failed o => exact ⟨o, by simp, rfl⟩
      | passed o => exact ⟨o, by simp, rfl⟩
  · rw [hfailed hall, List.append_nil]
    constructor
    · rintro ⟨x, hx, hc⟩
      exact absurd hc (hmoff x hx)
    · intro hpass
      exact absurd (fun x hx => hpass x hx (hms.mem hx)) hall

/-- Of two commands with others between them: the second one is attempted whenever the first one
has passed exactly when every command between them passes. -/
theorem Follows.switched_off_iff (h : Follows (pre ++ on :: (mid ++ [off])) xs) (hon : on ∉ pre)
    (honoff : on ≠ off) (hoff : off ∉ pre ++ mid) (hmid : ∀ c ∈ mid, c ∉ pre ∧ c ≠ on) :
    ((∃ x ∈ xs, x.command = on ∧ x.failed = false) → ∃ x ∈ xs, x.command = off) ↔
      ∀ x ∈ xs, x.command ∈ mid → x.failed = false := by
  rcases h.passes_at hon with ⟨as, x, bs, rfl, has, hxon, hx, hbs⟩ | ⟨hcommands, hfailed⟩
  · have hlast := hbs.last_attempted fun hm => hoff (List.mem_append_right pre hm)
    have hbehind : ∀ y ∈ as ++ x :: bs, y.command ∉ pre ++ [on] → y ∈ bs := by
      intro y hy hno
      rcases List.mem_append.mp hy with hy | hy
      · exact absurd (List.mem_append_left [on] (has.mem hy)) hno
      · rcases List.mem_cons.mp hy with rfl | hy
        · exact absurd (by simp [hxon]) hno
        · exact hy
    constructor
    · intro hoffed y hy hm
      obtain ⟨o, ho, hoc⟩ := hoffed ⟨x, by simp, hxon, hx⟩
      have hobs : o ∈ bs := by
        apply hbehind o ho
        rw [hoc, List.mem_append, List.mem_singleton]
        rintro (hpre | rfl)
        · exact hoff (List.mem_append_left mid hpre)
        · exact honoff rfl
      have hybs : y ∈ bs := by
        apply hbehind y hy
        rw [List.mem_append, List.mem_singleton]
        rintro (hpre | heq)
        · exact (hmid _ hm).1 hpre
        · exact (hmid _ hm).2 heq
      exact hlast.mp ⟨o, hobs, hoc⟩ y hybs hm
    · intro hpass _
      obtain ⟨o, ho, hoc⟩ := hlast.mpr fun y hy hm => hpass y (by simp [hy]) hm
      exact ⟨o, by simp [ho], hoc⟩
  · constructor
    · intro _ x hx hm
      rcases List.mem_append.mp (hcommands x hx) with hpre | heq
      · exact absurd hpre (hmid _ hm).1
      · exact absurd (List.mem_singleton.mp heq) (hmid _ hm).2
    · rintro _ ⟨x, hx, hc, hok⟩
      rw [hfailed x hx hc] at hok
      cases hok

/-- A command that has passed has its successor attempted behind it. -/
theorem Follows.then_attempted {next : Request} {rest : List Request}
    (h : Follows (pre ++ on :: next :: rest) xs) (hon : on ∉ pre)
    (hattempted : ∃ x ∈ xs, x.command = on) (hpass : ∀ x ∈ xs, x.command = on → x.failed = false) :
    ∃ past y behind, xs = past ++ y :: behind ∧ y.command = next ∧
      ∀ x ∈ past, x.command ∈ pre ++ [on] := by
  rcases h.passes_at hon with ⟨as, x, bs, rfl, has, hxon, _, hbs⟩ | ⟨_, hfailed⟩
  · have hpast : ∀ y ∈ as ++ [x], y.command ∈ pre ++ [on] := by
      intro y hy
      rcases List.mem_append.mp hy with hy | hy
      · exact List.mem_append_left _ (has.mem hy)
      · rw [List.mem_singleton.mp hy, hxon]
        exact List.mem_append_right pre (List.mem_singleton_self on)
    cases hbs with
    | failed y _ _ => exact ⟨as ++ [x], y, [], by simp, rfl, hpast⟩
    | @passed y _ ys _ _ => exact ⟨as ++ [x], y, ys, by simp, rfl, hpast⟩
  · obtain ⟨x, hx, hxon⟩ := hattempted
    have hok := hpass x hx hxon
    rw [hfailed x hx hxon] at hok
    cases hok

end Switch

namespace VoiceCall

theorem mem_behind_qcfg {msg : Request} {params : List UInt8} {commands : List Request}
    (h : msg ∈ makeAtQcfgWrite params :: commands) (hmsg : msg.command ≠ ascii "QCFG") :
    msg ∈ commands := by
  rcases List.mem_cons.mp h with rfl | h
  · exact absurd rfl hmsg
  · exact h

section Script
variable {usbCfg : List UInt8} {mid : List Request} {xs : List (Exchange Handler)}

theorem mem_behind_query {msg : Request} {commands : List Request}
    (h : msg ∈ queryUsbCfg :: makeAtQcfgWrite usbCfg :: commands)
    (hmsg : msg.command ≠ ascii "QCFG") : msg ∈ commands :=
  mem_behind_qcfg (mem_behind_qcfg h hmsg) hmsg

/-- The call that is dialled is hung up, and the PCM has not been switched off before. -/
theorem hung_up (h : Follows (queryUsbCfg :: makeAtQcfgWrite usbCfg ::
      ([setsPcm, setsGsm] ++ (call ++ [switchOff]))) xs)
    (hdialled : ∃ x ∈ xs, x.command = makeAtd (ascii "\"{}\";"))
    (hpass : ∀ x ∈ xs, x.command = makeAtd (ascii "\"{}\";") → x.failed = false) :
    ∃ past x behind, xs = past ++ x :: behind ∧ x.command = makeAth ∧
      ∀ y ∈ past, y.command ≠ switchOff := by
  have hcall : Follows ([queryUsbCfg, makeAtQcfgWrite usbCfg, setsPcm, setsGsm] ++
      makeAtd (ascii "\"{}\";") :: makeAth :: [switchOff]) xs := h
  have hbefore : makeAtd (ascii "\"{}\";") ∉
      [queryUsbCfg, makeAtQcfgWrite usbCfg, setsPcm, setsGsm] := by
    intro hmem
    exact absurd (mem_behind_query hmem (by decide)) (by decide)
  obtain ⟨past, y, behind, hxs, hath, hpast⟩ := hcall.then_attempted hbefore hdialled hpass
  refine ⟨past, y, behind, hxs, hath, fun z hz heq => ?_⟩
  have hmem := hpast z hz
  rw [heq] at hmem
  exact absurd (mem_behind_query hmem (by decide)) (by decide)

theorem follows_switchedOff (h : Follows (queryUsbCfg :: makeAtQcfgWrite usbCfg ::
      ([setsPcm, setsGsm] ++ (mid ++ [switchOff]))) xs) (hmid : mid = call ∨ mid = []) :
    SwitchedOff xs ↔ ∀ x ∈ xs, x.command ∈ setsGsm :: mid → x.failed = false := by
  have hscript : Follows ([queryUsbCfg, makeAtQcfgWrite usbCfg] ++ setsPcm ::
      (setsGsm :: mid ++ [switchOff])) xs := h
  have hcmd : ∀ c ∈ setsGsm :: mid, c.command ≠ ascii "QCFG" ∧ c ≠ setsPcm ∧ c ≠ switchOff := by
    rcases hmid with rfl | rfl <;> decide
  have hpre : ∀ c : Request, c.command ≠ ascii "QCFG" →
      c ∉ [queryUsbCfg, makeAtQcfgWrite usbCfg] :=
    fun c hc hmem => List.not_mem_nil (mem_behind_query hmem hc)
  have hoff : switchOff ∉ [queryUsbCfg, makeAtQcfgWrite usbCfg] ++ (setsGsm :: mid) := by
    intro hmem
    exact (hcmd _ (mem_behind_query hmem (by decide))).2.2 rfl
  have hiff := hscript.switched_off_iff (hpre _ (by decide)) (by decide) hoff
    fun c hc => ⟨hpre c (hcmd c hc).1, (hcmd c hc).2.1⟩
  rw [← hiff]
  refine ⟨fun hs => hs.pcm, fun hpcm => ⟨hpcm, fun hdialled => ?_⟩⟩
  rcases hmid with rfl | rfl
  · exact hung_up h hdialled fun x hx hd => hiff.mp hpcm x hx (by rw [hd]; decide)
  · obtain ⟨x, hx, hd⟩ := hdialled
    have hmem := mem_behind_query (h.mem hx) (by rw [hd]; decide)
    rw [hd] at hmem
    exact absurd hmem (by decide)

end Script

theorem scripted_switchedOff {p : Program Handler} {port : Port} {n : Nat} {mid : List Request}
    (h : Scripted p port n (mid ++ [switchOff])) (hmid : mid = call ∨ mid = []) :
    SwitchedOff (p.exchanges port n) ↔
      ∀ x ∈ p.exchanges port n, x.command ∈ setsGsm :: mid → x.failed = false := by
  cases h with
  | waiting _ h =>
    have hquery : ∀ x ∈ p.exchanges port n, x.command = queryUsbCfg := by
      intro x hx
      rw [h] at hx
      split at hx
      · rw [List.mem_singleton.mp hx]
      · cases hx
    have hno : ∀ x ∈ p.exchanges port n, x.command ∉ setsPcm :: setsGsm :: call := by
      intro x hx
      rw [hquery x hx]
      decide
    have hgsm : ∀ c ∈ setsGsm :: mid, c ∈ setsPcm :: setsGsm :: call := by
      rcases hmid with rfl | rfl <;> decide
    constructor
    · intro _ x hx hm
      exact absurd (hgsm _ hm) (hno x hx)
    · intro _
      constructor
      · rintro ⟨x, hx, hc, _⟩
        exact absurd (hc ▸ List.mem_cons_self) (hno x hx)
      · rintro ⟨x, hx, hc⟩
        exact absurd (by rw [hc]; decide) (hno x hx)
  | waited s xs hquery _ h hxs =>
    have hfollows : Follows (queryUsbCfg :: makeAtQcfgWrite s.usbCfg ::
        ([setsPcm, setsGsm] ++ (mid ++ [switchOff]))) (p.exchanges port n) := by
      rw [h]
      exact .passed ⟨queryUsbCfg, .start port⟩ hquery hxs
    exact follows_switchedOff hfollows hmid

/-- In every run of the call scenarios: the PCM that was switched on is switched off, and the
call that was dialled is hung up before, exactly when no exchange between the two AT+QPCMV
commands fails. -/
theorem switchedOff_iff (port : Port) (n : Nat) :
    (∀ da, SwitchedOff ((makeProgram da).exchanges port n) ↔
      ∀ x ∈ (makeProgram da).exchanges port n,
        x.command ∈ setsGsm :: call → x.failed = false) ∧
    (SwitchedOff (receiveProgram.exchanges port n) ↔
      ∀ x ∈ receiveProgram.exchanges port n, x.command ∈ [setsGsm] → x.failed = false) :=
  ⟨fun da => scripted_switchedOff (makeProgram_scripted da port n) (Or.inl rfl),
    scripted_switchedOff (receiveProgram_scripted port n) (Or.inr rfl)⟩

/-- The reply to AT+CSCS is cut off by an error, and the PCM stays on. -/
theorem switchedOff_not :
    let ok : Arrival UInt8 := ⟨ascii "\r\nOK\r\n", [], by decide⟩
    let urc : Arrival UInt8 := ⟨ascii "\r\n+QCFG: 0\r\n", [], by decide⟩
    let port : Port := ⟨true, [.received ok, .received urc, .received ok, .received ok],
      List.replicate 9 (.accepted 100 [])⟩
    ¬ SwitchedOff ((makeProgram (ascii "112")).exchanges port 1) := by
  intro ok urc port h
  have hon : ∃ x ∈ (makeProgram (ascii "112")).exchanges port 1,
      x.command = setsPcm ∧ x.failed = false := by decide +kernel
  have hoff : ¬ ∃ x ∈ (makeProgram (ascii "112")).exchanges port 1, x.command = switchOff := by
    decide +kernel
  exact hoff (h.pcm hon)

end VoiceCall

end Ringbeller
