import Ringbeller.App.Verbs
import Ringbeller.Asio.Backlog

/-!
# The end of a run

Every run of every scenario ends when the stream of its port does, and there is a number of handler
calls, given by the port alone, that is enough for all of them.
-/

namespace Ringbeller
set_option autoImplicit false

open Asio Script Session

/-! ## Loops that use something up -/

section Loop
variable {η : Type} {handle : η → Bool → Nat → Session η → Session η}

/-- A loop of which every call makes a weight smaller ends, and takes no more calls than that. -/
theorem dispatch_ends {P : Session η → Prop} {w : Session η → Nat}
    (hcall : ∀ op handler s, P s → s.pending = some (op, handler) →
      P (complete handle op handler { s with pending := none }) ∧
        w (complete handle op handler { s with pending := none }) < w s)
    {n : Nat} {s : Session η} (hs : P s) (hn : w s ≤ n) :
    (dispatch handle n s).2.pending = none ∧ P (dispatch handle n s).2 ∧
      ∀ m, w s ≤ m → dispatch handle m s = dispatch handle n s := by
  induction n generalizing s with
  | zero =>
    cases hp : s.pending with
    | none =>
      refine ⟨hp, hs, fun m _ => ?_⟩
      rw [(loop_idle handle hp m).2, (loop_idle handle hp 0).2]
    | some op =>
      have hless := (hcall op.1 op.2 s hs hp).2
      omega
  | succ n ih =>
    cases hp : s.pending with
    | none =>
      rw [(loop_idle handle hp (n + 1)).2]
      refine ⟨hp, hs, fun m _ => ?_⟩
      rw [(loop_idle handle hp m).2]
    | some op =>
      obtain ⟨hkept, hless⟩ := hcall op.1 op.2 s hs hp
      have hstep (m : Nat) : dispatch handle (m + 1) s =
          dispatch handle m (complete handle op.1 op.2 { s with pending := none }) := by
        simp only [dispatch, hp]
      obtain ⟨hnone, hend, hsame⟩ := ih hkept (by omega)
      rw [hstep n]
      refine ⟨hnone, hend, fun m hm => ?_⟩
      cases m with
      | zero => omega
      | succ m =>
        rw [hstep m]
        exact hsame m (by omega)

end Loop

/-! ## Programs that use something up -/

section Settles
variable {η : Type}

/-- `k` calls are enough for a loop of the program, wherever it is started. -/
structure Settles (p : Program η) (port : Port) (k : Nat) (P : Session η → Prop)
    (w : Session η → Nat) : Prop where
  start : P (.start port)
  execute : ∀ command s, P s → P (execute command s).2
  starts : ∀ f, .start f ∈ p.statements → ∀ s, P s → P (f s) ∧ (f s).thrown = s.thrown
  call : ∀ op handler s, P s → s.pending = some (op, handler) →
    P (complete p.handle op handler { s with pending := none }) ∧
      w (complete p.handle op handler { s with pending := none }) < w s
  stop : ∀ s, P s → P { s with stopped := true }
  bound : ∀ s, P s → w s ≤ k

variable {p : Program η} {port : Port} {k : Nat} {P : Session η → Prop} {w : Session η → Nat}

theorem Settles.run_step (h : Settles p port k P w) (n : Nat) {s : Session η} (hs : P s)
    (hthrown : s.thrown = false) :
    Ringbeller.run p.handle (k + n) s = Ringbeller.run p.handle k s ∧
      P (Ringbeller.run p.handle k s).2 ∧
      ((Ringbeller.run p.handle k s).1 = none ↔ (Ringbeller.run p.handle k s).2.thrown = true) := by
  obtain ⟨hnone, hkept, hsame⟩ := dispatch_ends h.call hs (h.bound s hs)
  have hbound := h.bound s hs
  have hmore := hsame (k + n) (by omega)
  have hflag := @dispatch_flag _ p.handle k s
  rw [hnone, Option.isNone_none, Bool.true_and] at hflag
  cases hstopped : s.stopped with
  | true =>
    simp only [Ringbeller.run, hstopped, if_true]
    exact ⟨trivial, hs, by simp [hthrown]⟩
  | false =>
    simp only [Ringbeller.run, hstopped, hmore, Bool.false_eq_true, if_false]
    refine ⟨trivial, ?_⟩
    cases hd : (Session.dispatch p.handle k s).1 with
    | true =>
      rw [hd] at hflag
      have hquiet : (Session.dispatch p.handle k s).2.thrown = false := by simpa using hflag.symm
      refine ⟨h.stop _ hkept, ?_⟩
      simp [hquiet]
    | false =>
      rw [hd] at hflag
      refine ⟨hkept, ?_⟩
      simp only [Bool.false_eq_true, if_false, true_iff]
      simpa using hflag

/-- The exception of a handler is what ends a statement without a status. -/
def Thrown (r : Option Int × Session η) : Prop := r.1 = none ↔ r.2.thrown = true

theorem Thrown.quiet {r : Option Int × Session η} (h : Thrown r) (hgo : r.1 = some 0) :
    r.2.thrown = false := by
  rw [Thrown, hgo] at h
  cases hr : r.2.thrown with
  | true => cases h.mpr hr
  | false => rfl

theorem Settles.step (h : Settles p port k P w) (n : Nat) {i : Statement η} (hi : i ∈ p.statements)
    {s : Session η} (hs : P s) (hthrown : s.thrown = false) :
    p.step port (k + n) i s = p.step port k i s ∧ P (p.step port k i s).2 ∧
      Thrown (p.step port k i s) := by
  cases i with
  | openPort =>
    refine ⟨rfl, hs, fun hno => ?_, fun hno => ?_⟩
    · cases hno
    · exact absurd (hthrown.symm.trans hno) Bool.false_ne_true
  | execute f =>
    have hstatus : (Ringbeller.execute (f s) s).1 ≠ none := by
      rw [execute_status]
      exact Option.some_ne_none _
    have hframe : (Ringbeller.execute (f s) s).2.thrown = false :=
      (execute_frame (f s) s).2.2.1.trans hthrown
    refine ⟨rfl, h.execute _ s hs, fun hno => absurd hno hstatus, fun hno => ?_⟩
    exact absurd (hframe.symm.trans hno) Bool.false_ne_true
  | start f =>
    obtain ⟨hkept, hframe⟩ := h.starts f hi s hs
    refine ⟨rfl, hkept, fun hno => ?_, fun hno => ?_⟩
    · cases hno
    · exact absurd ((hframe.trans hthrown).symm.trans hno) Bool.false_ne_true
  | run => exact h.run_step n hs hthrown

theorem Settles.run (h : Settles p port k P w) (n : Nat) :
    p.run port (k + n) = p.run port k ∧ Thrown (p.run port k) := by
  have hstart : P (.start port) ∧ (Session.start port : Session η).thrown = false := ⟨h.start, rfl⟩
  have hgoes {i : Statement η} (hi : i ∈ p.statements) {s : Session η}
      (hs : P s ∧ s.thrown = false) (h0 : (p.step port k i s).1 = some 0) :
      P (p.step port k i s).2 ∧ (p.step port k i s).2.thrown = false := by
    obtain ⟨_, hkept, hthrown⟩ := h.step n hi hs.1 hs.2
    exact ⟨hkept, hthrown.quiet h0⟩
  constructor
  · exact sequence_congr (P := fun s => P s ∧ s.thrown = false)
      (fun i hi s hs => ⟨(h.step n hi hs.1 hs.2).1, hgoes hi hs⟩) hstart
  · refine sequence_yields (P := fun s => P s ∧ s.thrown = false) (Q := Thrown) ?_ ?_ hstart
    · intro s hs
      refine ⟨fun hno => ?_, fun hno => absurd (hs.2.symm.trans hno) Bool.false_ne_true⟩
      cases hno
    · intro step hstep s hs
      obtain ⟨i, hi, rfl⟩ := List.mem_map.mp hstep
      exact ⟨(h.step n hi hs.1 hs.2).2.2, hgoes hi hs⟩

end Settles

/-! ## Handlers that read on -/

section Rearming
variable {η : Type}

def Session.backlog (s : Session η) : Nat := Asio.backlog s.buf s.turns

/-- What a handler leaves that ends the loop or, behind a read that has not failed, consumes the
count and reads on. -/
inductive Leaves (ec : Bool) (n : Nat) (s t : Session η) : Prop where
  | done (hpending : t.pending = none) (hbacklog : t.backlog ≤ s.backlog)
  | rearmed (handler : η) (hec : ec = false) (hbuf : t.buf = s.buf.consume n)
      (hturns : t.turns = s.turns)
      (hpending : t.pending = some (.reading t.buf.data (Ringbeller.asyncRead t.buf), handler))

def Rearming (handle : η → Bool → Nat → Session η → Session η) : Prop :=
  ∀ handler ec n s, s.pending = none → Leaves ec n s (handle handler ec n s)

/-- The calls that the loop can still make. -/
def allowance (s : Session η) : Nat :=
  match s.pending with
  | none => 0
  | some (.reading _ (.searching _), _) => 2 * s.backlog + 1
  | some (.reading _ (.found _), _) => 2 * s.backlog + 2
  | some (.writing _, _) => 2 * s.backlog + 3

/-- No more can come than there was, and what a pending read has found is not empty. -/
structure Sound (most : Nat) (s : Session η) : Prop where
  backlog : s.backlog ≤ most
  found : ∀ held n handler, s.pending = some (.reading held (.found n), handler) → 0 < n

theorem matchCondition_consuming : Consuming matchCondition := fun _ => matchCondition_consumes

theorem Sound.allowance_le {most : Nat} {s : Session η} (h : Sound most s) :
    allowance s ≤ 2 * most + 3 := by
  have hle := h.backlog
  unfold allowance
  split <;> omega

theorem allowance_pos {s : Session η} {op : Operation × η} (h : s.pending = some op) :
    0 < allowance s := by
  unfold allowance
  split
  · next hnone =>
    rw [hnone] at h
    cases h
  all_goals exact Nat.succ_pos _

theorem sound_of_none {most : Nat} {s : Session η} (hpending : s.pending = none)
    (hbacklog : s.backlog ≤ most) : Sound most s ∧ allowance s = 0 := by
  refine ⟨⟨hbacklog, fun held n handler hp => ?_⟩, by simp only [allowance, hpending]⟩
  rw [hpending] at hp
  cases hp

/-- A read counts at least one byte, and where it has searched itself no more than it has. -/
theorem reading_count {most : Nat} {s : Session η} (hs : Sound most s) {held : List UInt8}
    {op : Search} {handler : η} (hp : s.pending = some (.reading held op, handler))
    (hec : (finish matchCondition op s.buf s.turns).ec = false) :
    0 < (finish matchCondition op s.buf s.turns).count ∧
      ((finish matchCondition op s.buf s.turns).count ≤
        (finish matchCondition op s.buf s.turns).buf.data.length ∨
          2 * s.backlog + 2 ≤ allowance s) := by
  cases op with
  | found n =>
    rw [finish]
    exact ⟨hs.found held n handler hp, Or.inr (by simp only [allowance, hp]; omega)⟩
  | searching position =>
    obtain ⟨hpos, hle⟩ := finish_found matchCondition_consuming position s.buf s.turns hec
    exact ⟨hpos, Or.inl hle⟩

/-- The call of a handler for a read, and the consume of the lambda behind it. -/
theorem sound_reading {handle : η → Bool → Nat → Session η → Session η} (hr : Rearming handle)
    {most : Nat} {s : Session η} (hs : Sound most s) {held : List UInt8} {op : Search}
    {handler : η} (hp : s.pending = some (.reading held op, handler)) :
    Sound most (complete handle (.reading held op) handler { s with pending := none }) ∧
      allowance (complete handle (.reading held op) handler { s with pending := none }) <
        allowance s := by
  obtain ⟨o, ho⟩ : ∃ o, finish matchCondition op s.buf s.turns = o := ⟨_, rfl⟩
  have hmost := @finish_backlog _ matchCondition op s.buf s.turns
  rw [ho] at hmost
  obtain ⟨t, ht⟩ : ∃ t : Session η,
      { ({ s with pending := none } : Session η).didRead .asyncRead (deliver held o s.response).1
        (deliver held o s.response).2 with buf := o.buf.commit o.count } = t := ⟨_, rfl⟩
  have hcomplete : complete handle (.reading held op) handler { s with pending := none } =
      (handle handler o.ec o.count t).consume o.count := by
    rw [← ht, ← ho]
    rfl
  have hbuf : t.buf = o.buf.commit o.count := by rw [← ht]
  have htb : t.backlog ≤ s.backlog := by
    rw [Session.backlog, hbuf, backlog_commit, ← ht]
    exact hmost
  rw [hcomplete]
  cases hr handler o.ec o.count t (by rw [← ht]; rfl) with
  | done hnone hbacklog =>
    obtain ⟨u, hu⟩ : ∃ u, (handle handler o.ec o.count t).consume o.count = u := ⟨_, rfl⟩
    have hunone : u.pending = none := by
      rw [← hu]
      exact hnone
    have hub : u.backlog ≤ most := by
      have hconsumed := backlog_consume_le o.count (handle handler o.ec o.count t).buf
        (handle handler o.ec o.count t).turns
      have hmost := hs.backlog
      simp only [Session.backlog] at *
      rw [← hu]
      exact hconsumed.trans (by omega)
    obtain ⟨hsound, hzero⟩ := sound_of_none hunone hub
    rw [hu, hzero]
    exact ⟨hsound, allowance_pos hp⟩
  | rearmed next hec hnext hturns hpending =>
    have hcounted := reading_count hs hp (by rw [ho]; exact hec)
    rw [ho] at hcounted
    obtain ⟨hpos, hcount⟩ := hcounted
    obtain ⟨t', ht'⟩ : ∃ t', handle handler o.ec o.count t = t' := ⟨_, rfl⟩
    rw [ht'] at hnext hturns hpending ⊢
    have hdata : t'.buf.data.length = t.buf.data.length - o.count := by
      rw [hnext, Streambuf.consume, List.length_drop]
    have hown : o.buf.data.length ≤ t.buf.data.length := by
      rw [hbuf, Streambuf.commit, List.length_append]
      exact Nat.le_add_right _ _
    have hless : (t'.consume o.count).backlog ≤ t.backlog - min o.count t.buf.data.length := by
      have hfirst := backlog_consume o.count t.buf t.turns
      have hagain := backlog_consume_le o.count t'.buf t'.turns
      rw [hnext, hturns, hfirst] at hagain
      rw [Session.backlog, Session.consume, hnext, hturns]
      exact hagain
    have hall : t.buf.data.length ≤ t.backlog := by
      rw [Session.backlog, Asio.backlog]
      omega
    have hsmall := hs.backlog
    have hallowed := allowance_pos hp
    have hpending' : (t'.consume o.count).pending =
        some (.reading t'.buf.data (Ringbeller.asyncRead t'.buf), next) := hpending
    have hleast : 2 * s.backlog + 1 ≤ allowance s := by
      unfold allowance
      rw [hp]
      cases op <;> simp only <;> omega
    cases hsearch : Ringbeller.asyncRead t'.buf with
    | found m =>
      obtain ⟨hm, hle⟩ := search_found matchCondition_consuming hsearch
      rw [hsearch] at hpending'
      refine ⟨⟨by omega, fun held' n' handler' hp' => ?_⟩, ?_⟩
      · rw [hpending'] at hp'
        cases hp'
        exact hm
      · have hnew : allowance (t'.consume o.count) = 2 * (t'.consume o.count).backlog + 2 := by
          unfold allowance
          rw [hpending']
        omega
    | searching q =>
      rw [hsearch] at hpending'
      refine ⟨⟨by omega, fun held' n' handler' hp' => ?_⟩, ?_⟩
      · rw [hpending'] at hp'
        cases hp'
      · have hnew : allowance (t'.consume o.count) = 2 * (t'.consume o.count).backlog + 1 := by
          unfold allowance
          rw [hpending']
        omega

/-- The call of a handler for a write. -/
theorem sound_writing {handle : η → Bool → Nat → Session η → Session η} (hr : Rearming handle)
    {most : Nat} {s : Session η} (hs : Sound most s) {op : Writing} {handler : η}
    (hp : s.pending = some (.writing op, handler)) :
    Sound most (complete handle (.writing op) handler { s with pending := none }) ∧
      allowance (complete handle (.writing op) handler { s with pending := none }) <
        allowance s := by
  obtain ⟨w, hw⟩ : ∃ w, asyncWriteCompletes op s.puts = w := ⟨_, rfl⟩
  obtain ⟨t, ht⟩ : ∃ t : Session η,
      { s with pending := none, puts := w.puts, log := s.log ++ [.sent w.sent] } = t := ⟨_, rfl⟩
  have hcomplete : complete handle (.writing op) handler { s with pending := none } =
      handle handler w.ec w.count t := by
    rw [← ht, ← hw]
    rfl
  have htb : t.backlog = s.backlog := by
    rw [← ht]
    rfl
  have hsmall := hs.backlog
  have hallowed : allowance s = 2 * s.backlog + 3 := by simp only [allowance, hp]
  rw [hcomplete]
  cases hr handler w.ec w.count t (by rw [← ht]) with
  | done hnone hbacklog =>
    obtain ⟨hsound, hzero⟩ := @sound_of_none _ most _ hnone (by omega)
    rw [hzero]
    exact ⟨hsound, allowance_pos hp⟩
  | rearmed next hec hnext hturns hpending =>
    have hless := backlog_consume_le w.count t.buf t.turns
    have hb : (handle handler w.ec w.count t).backlog ≤ s.backlog := by
      rw [Session.backlog, hnext, hturns, ← htb]
      exact hless
    refine ⟨⟨by omega, fun held' n' handler' hp' => ?_⟩, ?_⟩
    · rw [hpending] at hp'
      exact (search_found matchCondition_consuming (Operation.reading.inj
        (Prod.mk.inj (Option.some.inj hp')).1).2).1
    · rw [hallowed]
      unfold allowance
      rw [hpending]
      cases Ringbeller.asyncRead (handle handler w.ec w.count t).buf <;> simp only <;> omega

/-- The calls that are enough for every loop of a port. -/
def Port.calls (port : Port) : Nat := 2 * Asio.backlog .new port.turns + 3

theorem sound_asyncRead {most : Nat} {s : Session η} (h : Sound most s) (handler : η) :
    Sound most (s.asyncRead handler) := by
  refine ⟨h.backlog, fun held n handler' hp => ?_⟩
  exact (search_found matchCondition_consuming (Operation.reading.inj
    (Prod.mk.inj (Option.some.inj hp)).1).2).1

theorem sound_execute {most : Nat} (command : Request) {s : Session η} (h : Sound most s) :
    Sound most (execute command s).2 := by
  obtain ⟨_, _, _, hpending⟩ := execute_frame command s
  refine ⟨?_, by rw [hpending]; exact h.found⟩
  have hbacklog := h.backlog
  cases hec : (s.write command).1 with
  | true =>
    rw [execute_unwritten hec]
    exact hbacklog
  | false =>
    rw [execute_written hec]
    have hless := @finish_backlog _ matchCondition (search matchCondition 0 []) .new s.turns
    simp only [Session.backlog, Asio.backlog, Streambuf.new, List.length_nil] at hbacklog hless ⊢
    refine Nat.le_trans (Nat.add_le_add_left ?_ _) hbacklog
    refine Nat.le_trans ?_ (Nat.le_trans hless (by omega))
    exact Nat.le_add_left _ _

/-- All that a program starts is reads. -/
def Awaits (p : Program η) : Prop :=
  ∀ f, .start f ∈ p.statements → ∃ handler, f = Session.asyncRead handler

theorem settles_rearming {p : Program η} (hr : Rearming p.handle) (hstarts : Awaits p)
    (port : Port) :
    Settles p port port.calls (Sound (Asio.backlog .new port.turns)) allowance := by
  constructor
  · exact ⟨Nat.le_refl _, fun held n handler hp => by cases hp⟩
  · exact fun command s hs => sound_execute command hs
  · intro f hf s hs
    obtain ⟨handler, rfl⟩ := hstarts f hf
    exact ⟨sound_asyncRead hs handler, rfl⟩
  · intro op handler s hs hp
    cases op with
    | reading held op => exact sound_reading hr hs hp
    | writing op => exact sound_writing hr hs hp
  · exact fun s hs => ⟨hs.backlog, hs.found⟩
  · exact fun s hs => hs.allowance_le

end Rearming

theorem receiveSms_rearming : Rearming ReceiveSms.handle := by
  intro handler ec n s hs
  have hless := backlog_consume_le n s.buf s.turns
  cases handler with
  | readHandler =>
    cases ec with
    | true => exact .done hs (Nat.le_refl _)
    | false =>
      cases hm : frontMarked "+CMT:" s.response with
      | true =>
        simp only [ReceiveSms.handle, response_consume, hm, Bool.false_eq_true, if_false, if_true]
        exact .done hs hless
      | false =>
        simp only [ReceiveSms.handle, response_consume, hm, Bool.false_eq_true, if_false]
        exact .rearmed .readHandler rfl rfl rfl rfl

theorem takeUsbCfg_frame (line : List UInt8) (s : Session VoiceCall.Handler) :
    (VoiceCall.takeUsbCfg line s).pending = s.pending ∧
      (VoiceCall.takeUsbCfg line s).buf = s.buf ∧
        (VoiceCall.takeUsbCfg line s).turns = s.turns := by
  unfold VoiceCall.takeUsbCfg
  split <;> exact ⟨rfl, rfl, rfl⟩

theorem voiceCall_rearming : Rearming VoiceCall.handle := by
  intro handler ec n s hs
  have hless := backlog_consume_le n s.buf s.turns
  cases handler with
  | qcfgReadHandler =>
    cases ec with
    | true => exact .done hs (Nat.le_refl _)
    | false =>
      cases hm : frontMarked "+QCFG:" s.response with
      | true =>
        simp only [VoiceCall.handle, response_consume, hm, Bool.false_eq_true, if_false, if_true]
        obtain ⟨hpending, hbuf, hturns⟩ := takeUsbCfg_frame (s.response.body.headD [])
          ((s.consume n).print "+QCFG received.\n")
        refine .done (hpending.trans hs) ?_
        rw [Session.backlog, hbuf, hturns]
        exact hless
      | false =>
        simp only [VoiceCall.handle, response_consume, hm, Bool.false_eq_true, if_false]
        exact .rearmed .qcfgReadHandler rfl rfl rfl rfl
  | callReadHandler =>
    cases ec with
    | true => exact .done hs (Nat.le_refl _)
    | false =>
      cases hm : frontMarked "RING" s.response with
      | true =>
        simp only [VoiceCall.handle, response_consume, hm, Bool.false_eq_true, if_false, if_true]
        exact .rearmed .qcfgReadHandler rfl rfl rfl rfl
      | false =>
        simp only [VoiceCall.handle, response_consume, hm, Bool.false_eq_true, if_false]
        exact .rearmed .qcfgReadHandler rfl rfl rfl rfl

/-! ## Handlers in order -/

section Ranked
variable {η : Type} {handle : η → Bool → Nat → Session η → Session η}

def ranked (rank : η → Nat) (s : Session η) : Nat :=
  match s.pending with
  | none => 0
  | some (_, handler) => rank handler + 1

/-- A handler starts only what is waited for by one of a lower rank. -/
def Ranks (rank : η → Nat) (handle : η → Bool → Nat → Session η → Session η) : Prop :=
  ∀ handler ec n s, s.pending = none → ∀ op next,
    (handle handler ec n s).pending = some (op, next) → rank next < rank handler

theorem complete_pending (op : Operation) (handler : η) (s : Session η) :
    ∃ ec n t, t.pending = s.pending ∧
      (complete handle op handler s).pending = (handle handler ec n t).pending := by
  cases op with
  | reading held op =>
    refine ⟨_, _, _, ?_, rfl⟩
    rfl
  | writing op =>
    refine ⟨_, _, _, ?_, rfl⟩
    rfl

theorem settles_ranked {p : Program η} {rank : η → Nat} (hr : Ranks rank p.handle)
    (hmost : ∀ handler, rank handler ≤ 2)
    (hstarts : ∀ f, .start f ∈ p.statements → ∀ s, (f s).thrown = s.thrown) (port : Port) :
    Settles p port port.calls (fun _ => True) (ranked rank) := by
  refine ⟨trivial, fun _ _ _ => trivial, fun f hf s _ => ⟨trivial, hstarts f hf s⟩, ?_,
    fun _ _ => trivial, fun s _ => ?_⟩
  · intro op handler s _ hp
    refine ⟨trivial, ?_⟩
    obtain ⟨ec, n, t, ht, hpending⟩ := @complete_pending _ p.handle op handler
      { s with pending := none }
    have hold : ranked rank s = rank handler + 1 := by simp only [ranked, hp]
    rw [hold, ranked, hpending]
    cases hnext : (p.handle handler ec n t).pending with
    | none => exact Nat.succ_pos _
    | some next =>
      have hless := hr handler ec n t ht next.1 next.2 hnext
      exact Nat.succ_lt_succ hless
  · unfold ranked Port.calls
    split
    · exact Nat.zero_le _
    · next handler _ =>
      have hle := hmost handler
      omega

end Ranked

/-- How many handler calls can still come behind the one of a handler. -/
def AtCops.Handler.rank : AtCops.Handler → Nat
  | .readHandler => 0
  | .writeHandler => 1

def SendSms.Handler.rank : SendSms.Handler → Nat
  | .textWriteHandler => 0
  | .promptReadHandler => 1
  | .cmgsWriteHandler => 2

theorem atCops_ranks : Ranks AtCops.Handler.rank AtCops.handle := by
  intro handler ec n s hs op next hp
  cases handler with
  | readHandler => cases hs.symm.trans hp
  | writeHandler =>
    cases ec with
    | true => cases hs.symm.trans hp
    | false =>
      obtain ⟨_, rfl⟩ := Prod.mk.inj (Option.some.inj hp)
      exact Nat.zero_lt_one

theorem sendSms_ranks (smsText : List UInt8) :
    Ranks SendSms.Handler.rank (SendSms.handle smsText) := by
  intro handler ec n s hs op next hp
  cases handler with
  | textWriteHandler => cases hs.symm.trans hp
  | promptReadHandler =>
    simp only [SendSms.handle] at hp
    split at hp
    · cases hs.symm.trans hp
    · split at hp
      · obtain ⟨_, rfl⟩ := Prod.mk.inj (Option.some.inj hp)
        exact Nat.zero_lt_one
      · cases hs.symm.trans hp
  | cmgsWriteHandler =>
    cases ec with
    | true => cases hs.symm.trans hp
    | false =>
      obtain ⟨_, rfl⟩ := Prod.mk.inj (Option.some.inj hp)
      exact Nat.one_lt_two

/-! ## The scenarios -/

theorem exchange_starting (msg : Request) : ∀ f : Session Empty → Session Empty,
    .start f ∈ ([.openPort, command msg] : List (Statement Empty)) →
      ∀ s, (f s).thrown = s.thrown := by
  simp [command]

theorem atCops_starting :
    ∀ f, .start f ∈ AtCops.program.statements → ∀ s, (f s).thrown = s.thrown := by
  simp [AtCops.program, Session.asyncWrite, Session.startWriting]

theorem sendSms_starting (da smsText : List UInt8) :
    ∀ f, .start f ∈ (SendSms.program da smsText).statements → ∀ s, (f s).thrown = s.thrown := by
  simp [SendSms.program, command, Session.asyncWrite, Session.startWriting]

theorem receiveSms_awaits : Awaits ReceiveSms.program := by
  intro f hf
  have hread : f = Session.asyncRead .readHandler := by
    simpa [ReceiveSms.program, command] using hf
  exact ⟨_, hread⟩

theorem makeVcall_awaits (da : List UInt8) : Awaits (VoiceCall.makeProgram da) := by
  intro f hf
  have hread : f = Session.asyncRead .qcfgReadHandler := by
    simpa [VoiceCall.makeProgram, VoiceCall.query, VoiceCall.dial, command] using hf
  exact ⟨_, hread⟩

theorem receiveVcall_awaits : Awaits VoiceCall.receiveProgram := by
  intro f hf
  have hread : f = Session.asyncRead .qcfgReadHandler ∨ f = Session.asyncRead .callReadHandler := by
    simpa [VoiceCall.receiveProgram, VoiceCall.query, VoiceCall.answer, command] using hf
  exact hread.elim (fun h => ⟨_, h⟩) fun h => ⟨_, h⟩

theorem exchange_settles (msg : Request) (port : Port) :
    Settles (⟨fun h => h.elim, [.openPort, command msg]⟩ : Program Empty) port port.calls
      (fun _ => True) (ranked fun h => h.elim) :=
  settles_ranked (fun h => h.elim) (fun h => h.elim) (exchange_starting msg) port

theorem Verb.ends (v : Verb) (port : Port) (n : Nat) :
    v.run port (port.calls + n) = v.run port port.calls ∧ Thrown (v.run port port.calls) := by
  cases v with
  | atOk => exact (exchange_settles makeAt port).run n
  | ati => exact (exchange_settles makeAti port).run n
  | atCops =>
    have hranks : ∀ h : AtCops.Handler, h.rank ≤ 2 := fun h => by cases h <;> decide
    exact (settles_ranked atCops_ranks hranks atCops_starting port).run n
  | rcvSms => exact (settles_rearming receiveSms_rearming receiveSms_awaits port).run n
  | sendSms da smsText =>
    have hranks : ∀ h : SendSms.Handler, h.rank ≤ 2 := fun h => by cases h <;> decide
    exact (settles_ranked (sendSms_ranks smsText) hranks (sendSms_starting da smsText) port).run n
  | makeCall da => exact (settles_rearming voiceCall_rearming (makeVcall_awaits da) port).run n
  | rcvCall => exact (settles_rearming voiceCall_rearming receiveVcall_awaits port).run n

/-- Every run of every scenario on a stream that ends, as those of a `Port` do, ends by itself: some
number of handler calls, which the port alone gives, is enough, and more change nothing. The run
then returns a status, unless a handler has thrown. A modem that stays connected and silent leaves a
read pending for ever, and is not among these ports. -/
theorem verb_ends (v : Verb) (port : Port) (n : Nat) :
    v.run port (port.calls + n) = v.run port port.calls ∧
      ((v.run port port.calls).1 = none ↔ (v.run port port.calls).2.thrown = true) :=
  v.ends port n

end Ringbeller
