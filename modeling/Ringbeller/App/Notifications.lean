import Ringbeller.App.CallLines

/-!
# Notification lines

The handlers recognise a notification by the last occurrence of its marker in the first line
of the response, and the +QCFG handlers take the value from a fixed place behind the marker.
-/

namespace Ringbeller
set_option autoImplicit false

open X3

/-- The markers that the handlers search for. -/
inductive Marker where
  | cmt
  | qcfg
  | ring
  | prompt
  deriving Repr, DecidableEq

def Marker.text : Marker → String
  | .cmt => "+CMT:"
  | .qcfg => "+QCFG:"
  | .ring => "RING"
  | .prompt => "> "

/-- The marker stands in the line again behind its beginning. -/
def Recurs (p line : List UInt8) : Prop := ∃ i, 0 < i ∧ p <+: line.drop i

theorem marked_iff (p line : List UInt8) : Marked p line ↔ p <+: line ∧ ¬ Recurs p line := by
  rw [Marked, Recurs]
  push Not
  rfl

theorem Marker.text_ne_nil (marker : Marker) : ascii marker.text ≠ [] := by
  cases marker <;> decide

/-- The test of the handlers tells whether the line begins with the marker exactly when a line
that begins with it does not contain it again. -/
theorem frontMarked_begins_iff (marker : Marker) (rc : ResultCode) (rcText line : List UInt8)
    (lines : List (List UInt8)) :
    (frontMarked marker.text ⟨rc, rcText, line :: lines⟩ = true ↔ ascii marker.text <+: line) ↔
      (ascii marker.text <+: line → ¬ Recurs (ascii marker.text) line) := by
  have htest : frontMarked marker.text ⟨rc, rcText, line :: lines⟩ = true ↔
      ascii marker.text <+: line ∧ ¬ Recurs (ascii marker.text) line := by
    rw [frontMarked_iff marker.text_ne_nil, ← marked_iff]
    simp
  rw [htest]
  constructor
  · intro h hbegins
    exact (h.mpr hbegins).2
  · intro h
    exact ⟨fun hmarked => hmarked.1, fun hbegins => ⟨hbegins, h hbegins⟩⟩

/-- A sender who has the marker in its name, and two rings in one line. -/
theorem frontMarked_recurring :
    let cmt := (parseResponse (ascii "\r\n+CMT: \"+48\",\"+CMT:\"\r\n") .fresh).2.body
    let ring := (parseResponse (ascii "\r\nRING RING\r\n") .fresh).2.body
    cmt = [ascii "+CMT: \"+48\",\"+CMT:\""] ∧ ascii "+CMT:" <+: ascii "+CMT: \"+48\",\"+CMT:\"" ∧
      frontMarked "+CMT:" ⟨.none, [], cmt⟩ = false ∧
      ring = [ascii "RING RING"] ∧ ascii "RING" <+: ascii "RING RING" ∧
      frontMarked "RING" ⟨.none, [], ring⟩ = false := by
  decide +kernel

namespace VoiceCall

/-- The handler has taken the value of the line, with its last character switched to 1. -/
structure Extracts (line : List UInt8) (s : Session Handler) : Prop where
  safe : s.thrown = false
  value : valuePart line ≠ []
  usbCfg : s.usbCfg = switchLast (valuePart line)

instance (line : List UInt8) (s : Session Handler) : Decidable (Extracts line s) :=
  decidable_of_iff
    (s.thrown = false ∧ valuePart line ≠ [] ∧ s.usbCfg = switchLast (valuePart line))
    ⟨fun h => ⟨h.1, h.2.1, h.2.2⟩, fun h => ⟨h.safe, h.value, h.usbCfg⟩⟩

theorem handle_accepted {line : List UInt8} {lines : List (List UInt8)} {s : Session Handler}
    (hbody : s.response.body = line :: lines) (h : frontMarked "+QCFG:" s.response = true)
    (n : Nat) : handle .qcfgReadHandler false n s =
      takeUsbCfg line ((s.consume n).print "+QCFG received.\n") := by
  simp [handle, h, hbody]

/-- The handler takes the value of a line that it accepts, without an exception, exactly when one
blank and something visible follow the colon. -/
theorem extracts_iff {line : List UInt8} {lines : List (List UInt8)} {s : Session Handler}
    (hbody : s.response.body = line :: lines) (h : frontMarked "+QCFG:" s.response = true)
    (hthrown : s.thrown = false) (n : Nat) :
    Extracts line (handle .qcfgReadHandler false n s) ↔ OneBlank line := by
  obtain ⟨line', lines', hbody', hmarked⟩ := frontMarked_cons (by decide) h
  obtain rfl : line = line' := (List.cons.inj (hbody.symm.trans hbody')).1
  rw [handle_accepted hbody h, ← taken_iff hmarked]
  constructor
  · rintro ⟨hsafe, hne, husbCfg⟩
    obtain ⟨hlong, htaken⟩ := takeUsbCfg_usbCfg _ hsafe
    rw [htaken] at husbCfg
    exact ⟨hlong, hne, husbCfg⟩
  · rintro ⟨hlong, hne, hswitch⟩
    have henough : ¬ (line.length < 7 ∨ line.drop 7 = []) := by
      have hlength := List.length_pos_of_ne_nil hlong
      rw [List.length_drop] at hlength
      rintro (hshort | hnil)
      · omega
      · exact hlong hnil
    rw [takeUsbCfg, if_neg henough]
    exact ⟨hthrown, hne, hswitch⟩

/-- The session behind a message with this line. -/
def showing (line : List UInt8) : Session Handler :=
  { Session.start ⟨true, [], []⟩ with response := ⟨.none, [], [line]⟩ }

/-- No value; a value of one character and no blank; a longer one and no blank. -/
theorem extracts_not :
    (∀ line ∈ [ascii "+QCFG:", ascii "+QCFG:5", ascii "+QCFG:55"],
      (parseResponse ([cr, lf] ++ line ++ [cr, lf]) .fresh).2.body = [line] ∧
        frontMarked "+QCFG:" (showing line).response = true ∧
        ¬ Extracts line (handle .qcfgReadHandler false 0 (showing line))) ∧
      (handle .qcfgReadHandler false 0 (showing (ascii "+QCFG:"))).thrown = true ∧
      (handle .qcfgReadHandler false 0 (showing (ascii "+QCFG:5"))).thrown = true ∧
      (handle .qcfgReadHandler false 0 (showing (ascii "+QCFG:55"))).usbCfg = ascii "1" ∧
      switchLast (valuePart (ascii "+QCFG:55")) = ascii "51" := by
  decide +kernel

theorem extracts_usbcfg :
    let line := ascii "+QCFG: \"usbcfg\",0x2C7C,0x125,1,1,1,1,1,0"
    Extracts line (handle .qcfgReadHandler false 0 (showing line)) := by
  intro line
  have hbody : (showing line).response.body = [line] := rfl
  have hblank : OneBlank line :=
    ⟨32, 34, ascii "usbcfg\",0x2C7C,0x125,1,1,1,1,1,0", by decide, by decide, by decide⟩
  exact (extracts_iff hbody (by decide +kernel) rfl 0).mpr hblank

end VoiceCall

end Ringbeller
