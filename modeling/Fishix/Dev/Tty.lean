import Mathlib.Data.List.Forall2
import Fishix.Common.Word

/-!
# Characters of a terminal

Model of `Terminal::process_output_char` and `Terminal::process_input_char` (dev/tty/tty.hpp:25-62).

A character that `ICRNL` or `INLCR` translates goes on through the function as it was: it is put
a second time, or it sends its signal as well. The control characters are unsigned and the
character is not, so that none from `0x80` on is ever found.

* `pieces_eq_map`: pieces that are not longer than they should be are the right ones.
* `processInputChar_contributes_iff`: what one character gives.
* `input_translation_iff`: what a sequence of characters gives.
-/

namespace Fishix.Dev.Tty

abbrev U8 := BitVec 8
abbrev U32 := BitVec 32

def NL : U8 := 0x0a#8
def CR : U8 := 0x0d#8

def INLCR : U32 := 0x40#32
def IGNCR : U32 := 0x80#32
def ICRNL : U32 := 0x100#32
def ONLCR : U32 := 0x4#32
def ISIG : U32 := 0x1#32

def VINTR : ℕ := 0
def VQUIT : ℕ := 1
def VSUSP : ℕ := 10

def SIGINT : ℕ := 2
def SIGQUIT : ℕ := 3
def SIGTSTP : ℕ := 20

/-- What these functions read of a `ktermios`. -/
structure Termios where
  iflag : U32
  oflag : U32
  lflag : U32
  cc : ℕ → U8

/-- What these functions read of a `Terminal`. The group is set where a terminal becomes the
    controlling terminal of a session. -/
structure Terminal where
  termios : Termios
  foregroundProcessGroup : Option ℕ := none

/-- What a character does. -/
inductive Effect
  | put (c : U8)
  | signal (group signal : ℕ)
  /-- `send_signal` of a group that is not set. -/
  | noGroup
  deriving DecidableEq

namespace Terminal

variable (t : Terminal)

/-- `Terminal::process_output_char` (dev/tty/tty.hpp:25-30), as what it puts. -/
def processOutputChar (c : U8) : List U8 :=
  (if c = NL ∧ t.termios.oflag &&& ONLCR ≠ 0#32 then [CR] else []) ++ [c]

/-- The tests of `Terminal::process_input_char` for a signal (dev/tty/tty.hpp:47-53). A `char` is
    signed, a `cc_t` is not. -/
def inputSignal (c : U8) : Option ℕ :=
  if c.toInt = (t.termios.cc VINTR).toNat then some SIGINT
  else if c.toInt = (t.termios.cc VQUIT).toNat then some SIGQUIT
  else if c.toInt = (t.termios.cc VSUSP).toNat then some SIGTSTP
  else none

def sendSignal (signal : ℕ) : Effect :=
  match t.foregroundProcessGroup with
  | some group => .signal group signal
  | none => .noGroup

/-- The end of `Terminal::process_input_char` (dev/tty/tty.hpp:46-61). -/
def inputTail (c : U8) : List Effect :=
  if t.termios.lflag &&& ISIG ≠ 0#32 then
    match t.inputSignal c with
    | some signal => [t.sendSignal signal]
    | none => [.put c]
  else [.put c]

/-- `Terminal::process_input_char` (dev/tty/tty.hpp:32-62), as what it puts and sends. -/
def processInputChar (c : U8) : List Effect :=
  if c = CR ∧ t.termios.iflag &&& IGNCR ≠ 0#32 then []
  else
    (if c = CR ∧ t.termios.iflag &&& ICRNL ≠ 0#32 then [.put NL]
      else if c = NL ∧ t.termios.iflag &&& INLCR ≠ 0#32 then [.put CR]
      else []) ++ t.inputTail c

/-! ## What a character is to give -/

/-- `IGNCR` drops it. -/
def Ignored (c : U8) : Prop := c = CR ∧ t.termios.iflag &&& IGNCR ≠ 0#32

/-- `ICRNL` or `INLCR` puts another character in its place. -/
def Translated (c : U8) : Prop :=
  ¬t.Ignored c ∧ (c = CR ∧ t.termios.iflag &&& ICRNL ≠ 0#32 ∨
    c = NL ∧ t.termios.iflag &&& INLCR ≠ 0#32)

/-- With `ISIG` it stands for a signal. -/
def StandsFor (c : U8) (signal : ℕ) : Prop :=
  t.termios.lflag &&& ISIG ≠ 0#32 ∧
    (c = t.termios.cc VINTR ∧ signal = SIGINT ∨ c = t.termios.cc VQUIT ∧ signal = SIGQUIT ∨
      c = t.termios.cc VSUSP ∧ signal = SIGTSTP)

/-- Nothing, one other character, a signal, or the character itself. -/
inductive Contributes (c : U8) : List Effect → Prop
  | nothing (h : t.Ignored c) : Contributes c []
  | newline (h : t.Translated c) (hcr : c = CR) : Contributes c [.put NL]
  | carriageReturn (h : t.Translated c) (hnl : c = NL) : Contributes c [.put CR]
  | signal {group signal : ℕ} (hkept : ¬t.Ignored c) (h : t.StandsFor c signal)
      (hgroup : t.foregroundProcessGroup = some group) : Contributes c [.signal group signal]
  | itself (hkept : ¬t.Ignored c) (hsame : ¬t.Translated c)
      (hplain : ∀ signal, ¬t.StandsFor c signal) : Contributes c [.put c]

/-- `out` is what the characters give one after the other. -/
def Translates (cs : List U8) (out : List Effect) : Prop :=
  ∃ parts, List.Forall₂ t.Contributes cs parts ∧ out = parts.flatten

/-- It is not translated, and if it stands for a signal, there is a group for it and it is below
    `0x80`. -/
def Settled (c : U8) : Prop :=
  ¬t.Translated c ∧ (¬t.Ignored c → ∀ signal, t.StandsFor c signal →
    c.msb = false ∧ t.foregroundProcessGroup ≠ none)

end Terminal

/-! ## Pieces -/

/-- Pieces none of which is longer than the right one, and which make the same list, are the right
    ones. -/
theorem pieces_eq_map {α β : Type} {f : α → List β} {l : List α} {parts : List (List β)}
    (hlength : List.Forall₂ (fun a p => p.length ≤ (f a).length) l parts)
    (h : l.flatMap f = parts.flatten) : parts = l.map f := by
  have hle : ∀ {l : List α} {parts : List (List β)},
      List.Forall₂ (fun a p => p.length ≤ (f a).length) l parts →
        parts.flatten.length ≤ (l.flatMap f).length := by
    intro l parts hlength
    induction hlength with
    | nil => exact Nat.le_refl _
    | cons hhead _ ih =>
      rw [List.flatten_cons, List.flatMap_cons, List.length_append, List.length_append]
      omega
  induction hlength with
  | nil => rfl
  | @cons a p l parts hhead htail ih =>
    rw [List.flatten_cons, List.flatMap_cons] at h
    have hrest := hle htail
    have htotal := congrArg List.length h
    rw [List.length_append, List.length_append] at htotal
    obtain ⟨hfirst, hothers⟩ := List.append_inj h (by omega)
    rw [List.map_cons, ih hothers, hfirst]

/-! ## One character -/

namespace Terminal

variable {t : Terminal} {c : U8} {out : List Effect}

/-- The comparison of a `char` with a `cc_t`. -/
theorem toInt_eq_toNat_iff {x : U8} : c.toInt = x.toNat ↔ c.msb = false ∧ c = x := by
  constructor
  · intro h
    have hmsb : c.msb = false := by
      by_contra hneg
      rw [Bool.not_eq_false] at hneg
      have hlt := BitVec.toInt_neg_of_msb_true hneg
      omega
    rw [BitVec.toInt_eq_toNat_of_msb hmsb] at h
    exact ⟨hmsb, BitVec.eq_of_toNat_eq (Int.ofNat.inj h)⟩
  · rintro ⟨hmsb, rfl⟩
    exact BitVec.toInt_eq_toNat_of_msb hmsb

theorem standsFor_of_inputSignal {signal : ℕ} (hisig : t.termios.lflag &&& ISIG ≠ 0#32)
    (h : t.inputSignal c = some signal) : t.StandsFor c signal ∧ c.msb = false := by
  unfold inputSignal at h
  split_ifs at h with hintr hquit hsusp
  · obtain rfl := Option.some.inj h
    obtain ⟨hmsb, hc⟩ := toInt_eq_toNat_iff.mp hintr
    exact ⟨⟨hisig, .inl ⟨hc, rfl⟩⟩, hmsb⟩
  · obtain rfl := Option.some.inj h
    obtain ⟨hmsb, hc⟩ := toInt_eq_toNat_iff.mp hquit
    exact ⟨⟨hisig, .inr (.inl ⟨hc, rfl⟩)⟩, hmsb⟩
  · obtain rfl := Option.some.inj h
    obtain ⟨hmsb, hc⟩ := toInt_eq_toNat_iff.mp hsusp
    exact ⟨⟨hisig, .inr (.inr ⟨hc, rfl⟩)⟩, hmsb⟩

/-- Below `0x80` a signal is found if there is one. -/
theorem inputSignal_ne_none {signal : ℕ} (h : t.StandsFor c signal) (hmsb : c.msb = false) :
    t.inputSignal c ≠ none := by
  unfold inputSignal
  split_ifs with hintr hquit hsusp
  · exact Option.some_ne_none _
  · exact Option.some_ne_none _
  · exact Option.some_ne_none _
  · rcases h.2 with ⟨hc, -⟩ | ⟨hc, -⟩ | ⟨hc, -⟩
    · exact absurd (toInt_eq_toNat_iff.mpr ⟨hmsb, hc⟩) hintr
    · exact absurd (toInt_eq_toNat_iff.mpr ⟨hmsb, hc⟩) hquit
    · exact absurd (toInt_eq_toNat_iff.mpr ⟨hmsb, hc⟩) hsusp

theorem processInputChar_ignored (h : t.Ignored c) : t.processInputChar c = [] := if_pos h

theorem length_inputTail : (t.inputTail c).length = 1 := by
  unfold inputTail
  split_ifs
  · cases t.inputSignal c with
    | none => rfl
    | some signal => rfl
  · rfl

theorem length_processInputChar_translated (h : t.Translated c) :
    (t.processInputChar c).length = 2 := by
  have hkept : ¬(c = CR ∧ t.termios.iflag &&& IGNCR ≠ 0#32) := h.1
  unfold processInputChar
  rw [if_neg hkept, List.length_append, length_inputTail]
  rcases h.2 with hcr | hnl
  · rw [if_pos hcr]
    rfl
  · have hne : ¬(c = CR ∧ t.termios.iflag &&& ICRNL ≠ 0#32) := by
      rintro ⟨hcr, -⟩
      rw [hnl.1] at hcr
      exact absurd hcr (by decide)
    rw [if_neg hne, if_pos hnl]
    rfl

/-- The other characters give one thing. -/
theorem processInputChar_same (hignored : ¬t.Ignored c) (hsame : ¬t.Translated c) :
    t.processInputChar c = t.inputTail c := by
  have hkept : ¬(c = CR ∧ t.termios.iflag &&& IGNCR ≠ 0#32) := hignored
  have hnot := fun h => hsame ⟨hignored, h⟩
  unfold processInputChar
  rw [if_neg hkept, if_neg fun h => hnot (.inl h), if_neg fun h => hnot (.inr h)]
  rfl

theorem inputTail_plain (hplain : ∀ signal, ¬t.StandsFor c signal) : t.inputTail c = [.put c] := by
  unfold inputTail
  split_ifs with hisig
  · cases hfound : t.inputSignal c with
    | none => rfl
    | some signal => exact absurd (standsFor_of_inputSignal hisig hfound).1 (hplain signal)
  · rfl

theorem Contributes.length_le_one (h : t.Contributes c out) : out.length ≤ 1 := by
  cases h <;> simp

/-- What a character is to give is never longer than what it gives. -/
theorem Contributes.length_le (h : t.Contributes c out) :
    out.length ≤ (t.processInputChar c).length := by
  by_cases hignored : t.Ignored c
  · cases h with
    | nothing => exact Nat.zero_le _
    | newline h => exact absurd hignored h.1
    | carriageReturn h => exact absurd hignored h.1
    | signal hkept => exact absurd hignored hkept
    | itself hkept => exact absurd hignored hkept
  · have hout := h.length_le_one
    by_cases htranslated : t.Translated c
    · rw [length_processInputChar_translated htranslated]
      omega
    · rw [processInputChar_same hignored htranslated, length_inputTail]
      exact hout

/-- A character gives what it is to give exactly if it is settled. -/
theorem processInputChar_contributes_iff :
    t.Contributes c (t.processInputChar c) ↔ t.Settled c := by
  by_cases hignored : t.Ignored c
  · rw [processInputChar_ignored hignored]
    exact ⟨fun _ => ⟨fun h => h.1 hignored, fun hkept => absurd hignored hkept⟩,
      fun _ => .nothing hignored⟩
  by_cases htranslated : t.Translated c
  · constructor
    · intro h
      have hlength := length_processInputChar_translated htranslated
      have hle := h.length_le_one
      omega
    · exact fun h => absurd htranslated h.1
  rw [processInputChar_same hignored htranslated]
  by_cases hstands : ∃ signal, t.StandsFor c signal
  · obtain ⟨signal, hsignal⟩ := hstands
    unfold inputTail
    rw [if_pos hsignal.1]
    cases hfound : t.inputSignal c with
    | none =>
      constructor
      · intro h
        cases h with
        | newline h => exact absurd h htranslated
        | carriageReturn h => exact absurd h htranslated
        | itself _ _ hplain => exact absurd hsignal (hplain signal)
      · intro h
        exact absurd hfound (inputSignal_ne_none hsignal (h.2 hignored signal hsignal).1)
    | some found =>
      obtain ⟨hfor, hmsb⟩ := standsFor_of_inputSignal hsignal.1 hfound
      cases hgroup : t.foregroundProcessGroup with
      | none =>
        simp only [sendSignal, hgroup]
        constructor
        · intro h
          cases h
        · intro h
          exact absurd hgroup (h.2 hignored signal hsignal).2
      | some group =>
        simp only [sendSignal, hgroup]
        refine ⟨fun _ => ⟨htranslated, fun _ _ _ => ⟨hmsb, ?_⟩⟩,
          fun _ => .signal hignored hfor hgroup⟩
        rw [hgroup]
        exact Option.some_ne_none _
  · have hplain : ∀ signal, ¬t.StandsFor c signal := fun signal h => hstands ⟨signal, h⟩
    rw [inputTail_plain hplain]
    exact ⟨fun _ => ⟨htranslated, fun _ signal h => absurd h (hplain signal)⟩,
      fun _ => .itself hignored htranslated hplain⟩

end Terminal

/-! ## A sequence of characters -/

/-- **Main theorem.** A sequence of characters gives what each of them is to give, in order, exactly
    if all of them are settled. -/
theorem input_translation_iff {t : Terminal} {cs : List U8} :
    t.Translates cs (cs.flatMap t.processInputChar) ↔ ∀ c ∈ cs, t.Settled c := by
  constructor
  · rintro ⟨parts, hparts, hout⟩ c hc
    obtain rfl := pieces_eq_map (hparts.imp fun _ _ h => h.length_le) hout
    rw [List.forall₂_map_right_iff, List.forall₂_same] at hparts
    exact Terminal.processInputChar_contributes_iff.mp (hparts c hc)
  · intro h
    refine ⟨cs.map t.processInputChar, ?_, List.flatMap_def⟩
    rw [List.forall₂_map_right_iff, List.forall₂_same]
    intro c hc
    exact Terminal.processInputChar_contributes_iff.mpr (h c hc)

/-- A fresh terminal turns CR into NL and CR. -/
theorem carriage_return_twice : ∃ t : Terminal, t.processInputChar CR = [.put NL, .put CR] ∧
    ¬t.Translates [CR] ([CR].flatMap t.processInputChar) := by
  let t : Terminal :=
    { termios := { iflag := ICRNL, oflag := ONLCR, lflag := ISIG, cc := fun _ => 0x03#8 } }
  have hput : t.processInputChar CR = [.put NL, .put CR] := by decide
  refine ⟨t, hput, ?_⟩
  rintro ⟨parts, hparts, hout⟩
  obtain rfl := pieces_eq_map (hparts.imp fun _ _ h => h.length_le) hout
  rw [List.forall₂_map_right_iff, List.forall₂_same] at hparts
  have hcontributes := hparts CR (by simp)
  rw [hput] at hcontributes
  cases hcontributes

end Fishix.Dev.Tty
