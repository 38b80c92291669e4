import Mathlib.Logic.Function.Basic
import Pintos.Devices.Intq
import Pintos.Kit.Run

/-! The keyboard driver of devices/kbd.c over the input buffer of devices/input.c. Each keyboard
interrupt reads a scancode, keeps the state of the Shift, Ctrl, Alt and Caps Lock keys, and
appends the character of a key press to the buffer unless it is full; `input_getc` takes the
characters out in order. -/
namespace Pintos.Devices
open Pintos.Kit

/-! ### The driver -/

/-- `struct keymap`: `chars[i]` has scancode `first_scancode + i`. -/
structure Keymap where
  firstScancode : UInt8
  chars : List Char

/-- `invariant_keymap`: the keys whose character does not depend on Shift (letters aside). -/
def invariantKeymap : List Keymap :=
  [⟨0x01, ['\x1b']⟩, ⟨0x0e, ['\x08']⟩,
    ⟨0x0f, ['\t', 'Q', 'W', 'E', 'R', 'T', 'Y', 'U', 'I', 'O', 'P']⟩, ⟨0x1c, ['\r']⟩,
    ⟨0x1e, ['A', 'S', 'D', 'F', 'G', 'H', 'J', 'K', 'L']⟩, ⟨0x2c, ['Z', 'X', 'C', 'V', 'B', 'N', 'M']⟩,
    ⟨0x37, ['*']⟩, ⟨0x39, [' ']⟩, ⟨0x53, ['\x7f']⟩]

/-- `unshifted_keymap`. -/
def unshiftedKeymap : List Keymap :=
  [⟨0x02, ['1', '2', '3', '4', '5', '6', '7', '8', '9', '0', '-', '=']⟩, ⟨0x1a, ['[', ']']⟩,
    ⟨0x27, [';', '\x27', '\x60']⟩, ⟨0x2b, ['\x5c']⟩, ⟨0x33, [',', '.', '/']⟩]

/-- `shifted_keymap`. -/
def shiftedKeymap : List Keymap :=
  [⟨0x02, ['!', '@', '#', '$', '%', '^', '&', '*', '(', ')', '_', '+']⟩, ⟨0x1a, ['{', '}']⟩,
    ⟨0x27, [':', '\x22', '~']⟩, ⟨0x2b, ['|']⟩, ⟨0x33, ['<', '>', '?']⟩]

/-- `map_key`: the character of SCANCODE in the first keymap of K whose range holds it. -/
def mapKey : List Keymap → UInt32 → Option UInt8
  | [], _ => none
  | k :: ks, scancode =>
    if k.firstScancode.toNat ≤ scancode.toNat ∧
        scancode.toNat < k.firstScancode.toNat + k.chars.length then
      some (k.chars.getD (scancode.toNat - k.firstScancode.toNat) '\x00').toUInt8
    else mapKey ks scancode

/-- `tolower` of lib/ctype.h. -/
def tolower (c : UInt8) : UInt8 := if 65 ≤ c ∧ c ≤ 90 then c - 65 + 97 else c

/-- The six keys whose state `keyboard_interrupt` keeps in a flag of its own. -/
inductive Modifier where
  | leftShift | rightShift | leftAlt | rightAlt | leftCtrl | rightCtrl
deriving DecidableEq, Repr

/-- `shift_keys`: the scancode that sets each flag. -/
def shiftKeys : List (UInt32 × Modifier) :=
  [(0x2a, .leftShift), (0x36, .rightShift), (0x38, .leftAlt), (0xe038, .rightAlt),
    (0x1d, .leftCtrl), (0xe01d, .rightCtrl)]

/-- The state of kbd.c and input.c: the flags `left_shift` to `right_ctrl`, `caps_lock`,
`key_cnt` and the input buffer. -/
structure Kbd where
  held : Modifier → Bool
  capsLock : Bool
  keyCnt : Nat
  buffer : Intq

/-- The scancode `keyboard_interrupt` reads from `DATA_REG`: one byte, or two after the
prefix `0xe0`. -/
def readScancode (first second : UInt8) : UInt32 :=
  if first.toUInt32 = 0xe0 then ((0xe0 : UInt32) <<< 8) ||| second.toUInt32 else first.toUInt32

/-- The character `keyboard_interrupt` looks up for CODE: in `invariant_keymap`, or else in the
keymap of the Shift state. -/
def charOfCode (shift : Bool) (code : UInt32) : Option UInt8 :=
  match mapKey invariantKeymap code with
  | some c => some c
  | none => if shift then mapKey shiftedKeymap code else mapKey unshiftedKeymap code

/-- What Ctrl, Shift, Caps Lock and Alt make of the character C of a key press: Ctrl turns
`0x40`-`0x5f` into a control code and overrides Shift, the case of a letter follows Shift
against Caps Lock, and Alt sets the high bit. -/
def adjustChar (ctrl shift alt caps : Bool) (c : UInt8) : UInt8 :=
  let c := if ctrl ∧ 0x40 ≤ c ∧ c < 0x60 then c - 0x40 else if shift = caps then tolower c else c
  if alt then c + 0x80 else c

/-- `keyboard_interrupt` for the scancode CODE read; `none` is `shutdown_reboot` on
Ctrl+Alt+Del. `input_putc` is only reached with room in the buffer. -/
def keyboardInterrupt (s : Kbd) (code : UInt32) : Option Kbd :=
  let shift := s.held .leftShift || s.held .rightShift
  let alt := s.held .leftAlt || s.held .rightAlt
  let ctrl := s.held .leftCtrl || s.held .rightCtrl
  -- bit `0x80` tells a release from a press, even after the prefix
  let release := code &&& 0x80 != 0
  let code := code &&& ~~~0x80
  if code = 0x3a then
    some { s with capsLock := if release then s.capsLock else !s.capsLock }
  else
    match charOfCode shift code with
    | some c =>
      if release then some s
      else if c = 0x7f ∧ ctrl ∧ alt then none
      else if intqFull s.buffer then some s
      else (intqPutc s.buffer (adjustChar ctrl shift alt s.capsLock c)).map fun q =>
        { s with keyCnt := s.keyCnt + 1, buffer := q }
    | none =>
      match shiftKeys.find? (·.1 = code) with
      | some (_, m) => some { s with held := Function.update s.held m !release }
      | none => some s

/-- `input_getc`; `none` where the buffer is empty and the caller would wait. -/
def inputGetc (s : Kbd) : Option (UInt8 × Kbd) :=
  (intqGetc s.buffer).map fun r => (r.1, { s with buffer := r.2 })

/-- What happens to the keyboard and its buffer: an interrupt with the bytes it reads from
`DATA_REG` (the second only after `0xe0`), or a thread's `input_getc`. -/
inductive KbdEvent where
  | interrupt (first second : UInt8)
  | getc

/-- One event, with the characters `input_getc` has returned so far. -/
def kbdStep : Kbd × List UInt8 → KbdEvent → Option (Kbd × List UInt8)
  | (s, out), .interrupt first second =>
    (keyboardInterrupt s (readScancode first second)).map (·, out)
  | (s, out), .getc => (inputGetc s).map fun r => (r.2, out ++ [r.1])

/-- The state after `kbd_init` and `input_init` at boot: no key down, Caps Lock off, no key
counted and an empty buffer. -/
def kbdBoot (buf : Fin intqBufsize → UInt8) : Kbd := ⟨fun _ => false, false, 0, intqInit buf⟩

/-! ### The keys held -/

/-- The scancode of an event, if it is a keyboard interrupt. -/
def KbdEvent.code : KbdEvent → Option UInt32
  | .interrupt first second => some (readScancode first second)
  | .getc => none

/-- The scancode of the key each flag is for. -/
def Modifier.scancode : Modifier → UInt32
  | .leftShift => 0x2a
  | .rightShift => 0x36
  | .leftAlt => 0x38
  | .rightAlt => 0xe038
  | .leftCtrl => 0x1d
  | .rightCtrl => 0xe01d

/-- Whether the key with scancode K is down after the scancodes CS: down if the last of them for
K is a press, up if it is a release, and INIT if none is for K. -/
def keyDown (k : UInt32) (init : Bool) (cs : List UInt32) : Bool :=
  match cs.reverse.find? (fun c => c &&& ~~~0x80 == k) with
  | some c => c &&& 0x80 == 0
  | none => init

/-- Whether the scancode C is a press of Caps Lock. -/
def capsPress (c : UInt32) : Bool := c &&& ~~~0x80 == 0x3a && c &&& 0x80 == 0

theorem keyDown_cons (k : UInt32) (init : Bool) (c : UInt32) (cs : List UInt32) :
    keyDown k init (c :: cs) =
      keyDown k (if c &&& ~~~0x80 == k then c &&& 0x80 == 0 else init) cs := by
  unfold keyDown
  rw [List.reverse_cons, List.find?_append]
  cases cs.reverse.find? (fun c => c &&& ~~~0x80 == k) with
  | some c' => rfl
  | none =>
    by_cases hc : (c &&& ~~~0x80 == k) = true
    · simp [hc]
    · simp [hc]

theorem scancode_injective {m m' : Modifier} (h : m.scancode = m'.scancode) : m = m' := by
  cases m <;> cases m' <;> first | rfl | exact absurd h (by decide)

theorem shiftKeys_find_some {code : UInt32} {p : UInt32 × Modifier}
    (h : shiftKeys.find? (·.1 = code) = some p) : code = p.2.scancode := by
  have hp : p.1 = code := by simpa using List.find?_some h
  have htable : ∀ q ∈ shiftKeys, q.1 = q.2.scancode := by simp [shiftKeys, Modifier.scancode]
  rw [← hp]
  exact htable p (List.mem_of_find?_eq_some h)

theorem shiftKeys_find_none {code : UInt32} (h : shiftKeys.find? (·.1 = code) = none)
    (m : Modifier) : code ≠ m.scancode := by
  rintro rfl
  cases m <;> simp [shiftKeys, Modifier.scancode] at h

theorem charOfCode_scancode (shift : Bool) (m : Modifier) : charOfCode shift m.scancode = none := by
  cases shift <;> cases m <;> decide

/-- A keyboard interrupt that returns sets the flag of the key it reads to whether it is a press,
toggles Caps Lock on its press, and leaves the other flags. -/
theorem keyboardInterrupt_keys {s t : Kbd} {code : UInt32} (h : keyboardInterrupt s code = some t) :
    (∀ m, t.held m = if code &&& ~~~0x80 == m.scancode then code &&& 0x80 == 0 else s.held m) ∧
      t.capsLock = (s.capsLock ^^ capsPress code) := by
  unfold keyboardInterrupt at h
  dsimp only at h
  have hrel : ∀ b : Bool, (if (code &&& 0x80 != 0) = true then b else !b) =
      (b ^^ (code &&& 0x80 == 0)) := fun b => by
    cases hz : code &&& 0x80 == 0 <;> simp_all
  split at h
  · -- Caps Lock: its scancode is no modifier's
    rename_i hcaps
    cases h
    have hm : ∀ m : Modifier, (0x3a : UInt32) ≠ m.scancode := by intro m; cases m <;> decide
    refine ⟨fun m => by simp [hcaps, hm m], ?_⟩
    simp only [capsPress, hcaps, beq_self_eq_true, Bool.true_and]
    exact hrel s.capsLock
  · rename_i hcaps
    have hnc : capsPress code = false := by simp [capsPress, hcaps]
    split at h
    · -- a key of a keymap: no modifier's, and no flag changes whatever happens
      rename_i c hc
      have hm : ∀ m : Modifier, code &&& ~~~0x80 ≠ m.scancode := fun m e => by
        rw [e, charOfCode_scancode] at hc
        cases hc
      have hkeep : t.held = s.held ∧ t.capsLock = s.capsLock := by
        split at h
        · cases h
          exact ⟨rfl, rfl⟩
        split at h
        · cases h
        split at h
        · cases h
          exact ⟨rfl, rfl⟩
        cases hq : intqPutc s.buffer _ with
        | none => rw [hq] at h; cases h
        | some q => rw [hq] at h; cases h; exact ⟨rfl, rfl⟩
      refine ⟨fun m => ?_, by rw [hkeep.2, hnc, Bool.xor_false]⟩
      rw [hkeep.1, if_neg (by simpa using hm m)]
    · -- a modifier's key sets its own flag, any other code nothing
      split at h
      · rename_i k m' hp
        cases h
        have hcode : code &&& ~~~0x80 = m'.scancode := shiftKeys_find_some hp
        refine ⟨fun m => ?_, by rw [hnc, Bool.xor_false]⟩
        by_cases e : m = m'
        · subst e
          simp [hcode, bne]
        · have hne : code &&& ~~~0x80 ≠ m.scancode := fun h' =>
            e (scancode_injective (h'.symm.trans hcode))
          simp [Function.update_of_ne e, hne]
      · rename_i hp
        cases h
        refine ⟨fun m => ?_, by rw [hnc, Bool.xor_false]⟩
        simp [shiftKeys_find_none hp m]

theorem inputGetc_keys {s t : Kbd} {c : UInt8} (h : inputGetc s = some (c, t)) :
    t.held = s.held ∧ t.capsLock = s.capsLock ∧ t.keyCnt = s.keyCnt := by
  unfold inputGetc at h
  cases hq : intqGetc s.buffer with
  | none =>
    rw [hq] at h
    cases h
  | some r =>
    rw [hq] at h
    cases h
    exact ⟨rfl, rfl, rfl⟩

private theorem xor_parity (b p : Bool) (n : Nat) :
    ((b ^^ p) ^^ (n % 2 == 1)) = (b ^^ ((n + if p then 1 else 0) % 2 == 1)) := by
  cases p
  · simp
  · rcases Nat.mod_two_eq_zero_or_one n with hn | hn
    · have : (n + 1) % 2 = 1 := by omega
      simp [hn, this]
    · have : (n + 1) % 2 = 0 := by omega
      simp [hn, this]

/-- After any run of keyboard interrupts and reads, each Shift, Ctrl and Alt flag says whether the
last scancode for its key was a press (as before the run if none was for it), and Caps Lock has
toggled once for each press of its key, releases and every other code leaving it. -/
theorem kbd_modifiers_follow_keys (es : List KbdEvent) {s t : Kbd} {out out' : List UInt8}
    (h : runs kbdStep (s, out) es = some (t, out')) :
    (∀ m, t.held m = keyDown m.scancode (s.held m) (es.filterMap KbdEvent.code)) ∧
      t.capsLock = (s.capsLock ^^ ((es.filterMap KbdEvent.code).countP capsPress % 2 == 1)) := by
  induction es generalizing s out with
  | nil =>
    cases h
    exact ⟨fun m => rfl, by simp⟩
  | cons e es ih =>
    rw [runs_cons] at h
    cases e with
    | interrupt first second =>
      cases hk : keyboardInterrupt s (readScancode first second) with
      | none => simp [kbdStep, hk] at h
      | some u =>
        simp only [kbdStep, hk, Option.map_some, Option.bind_some] at h
        obtain ⟨hheld, hcaps⟩ := keyboardInterrupt_keys hk
        obtain ⟨ih1, ih2⟩ := ih h
        simp only [List.filterMap_cons, KbdEvent.code]
        refine ⟨fun m => ?_, ?_⟩
        · rw [ih1 m, hheld m, keyDown_cons]
        · rw [ih2, hcaps, List.countP_cons, xor_parity]
    | getc =>
      cases hg : inputGetc s with
      | none => simp [kbdStep, hg] at h
      | some r =>
        obtain ⟨c, u⟩ := r
        simp only [kbdStep, hg, Option.map_some, Option.bind_some] at h
        obtain ⟨hheld, hcaps, -⟩ := inputGetc_keys hg
        obtain ⟨ih1, ih2⟩ := ih h
        simp only [List.filterMap_cons, KbdEvent.code]
        exact ⟨fun m => by rw [ih1 m, hheld], by rw [ih2, hcaps]⟩

/-- Left Shift pressed and released around an `a`, then Caps Lock pressed and released: Shift is
up again and Caps Lock on. -/
theorem kbd_modifiers_follow_keys_sample :
    ∃ t out, runs kbdStep (kbdBoot fun _ => 0, [])
        [.interrupt 0x2a 0, .interrupt 0x1e 0, .interrupt 0xaa 0, .interrupt 0x3a 0,
          .interrupt 0xba 0] = some (t, out) ∧ t.held .leftShift = false ∧ t.capsLock = true := by
  obtain ⟨⟨t, out⟩, hr⟩ := Option.isSome_iff_exists.mp (by decide : (runs kbdStep
    (kbdBoot fun _ => 0, []) [.interrupt 0x2a 0, .interrupt 0x1e 0, .interrupt 0xaa 0,
      .interrupt 0x3a 0, .interrupt 0xba 0]).isSome = true)
  obtain ⟨h1, h2⟩ := kbd_modifiers_follow_keys _ hr
  exact ⟨t, out, hr, by rw [h1]; decide, by rw [h2]; decide⟩

/-! ### The characters typed -/

/-- The character a press of CODE types under the flags HELD and CAPS; none for a release, for
Caps Lock, for a modifier and for a key of no keymap. -/
def pressChar (held : Modifier → Bool) (caps : Bool) (code : UInt32) : Option UInt8 :=
  let shift := held .leftShift || held .rightShift
  if code &&& 0x80 != 0 ∨ code &&& ~~~0x80 = 0x3a then none
  else (charOfCode shift (code &&& ~~~0x80)).map
    (adjustChar (held .leftCtrl || held .rightCtrl) shift (held .leftAlt || held .rightAlt) caps)

/-- The characters that the key presses among the scancodes CS type, each under the flags the
codes before it leave from HELD and CAPS. -/
def typed (held : Modifier → Bool) (caps : Bool) : List UInt32 → List UInt8
  | [] => []
  | c :: cs => (pressChar held caps c).toList ++
      typed (fun m => keyDown m.scancode (held m) [c]) (caps ^^ capsPress c) cs

/-- A keyboard interrupt that returns stores the character its scancode types if the buffer has
room, counting it in `key_cnt`, and otherwise leaves the buffer and the count. -/
theorem keyboardInterrupt_buffer {s u : Kbd} {code : UInt32} (h : keyboardInterrupt s code = some u) :
    (pressChar s.held s.capsLock code = none ∧ u.buffer = s.buffer ∧ u.keyCnt = s.keyCnt) ∨
    (∃ c, pressChar s.held s.capsLock code = some c ∧ intqFull s.buffer = true ∧
      u.buffer = s.buffer ∧ u.keyCnt = s.keyCnt) ∨
    (∃ c, pressChar s.held s.capsLock code = some c ∧ intqFull s.buffer = false ∧
      contents u.buffer = contents s.buffer ++ [c] ∧ u.keyCnt = s.keyCnt + 1) := by
  unfold keyboardInterrupt at h
  dsimp only at h
  split at h
  · -- Caps Lock
    rename_i hcaps
    cases h
    exact .inl ⟨by simp [pressChar, hcaps], rfl, rfl⟩
  · rename_i hcaps
    split at h
    · rename_i c hc
      split at h
      · -- a release types nothing
        rename_i hrel
        cases h
        exact .inl ⟨by simp [pressChar, hrel], rfl, rfl⟩
      rename_i hrel
      have hp : pressChar s.held s.capsLock code = some (adjustChar
          (s.held .leftCtrl || s.held .rightCtrl) (s.held .leftShift || s.held .rightShift)
          (s.held .leftAlt || s.held .rightAlt) s.capsLock c) := by
        simp [pressChar, hrel, hcaps, hc]
      split at h
      · cases h
      split at h
      · rename_i hfull
        cases h
        exact .inr (.inl ⟨_, hp, hfull, rfl, rfl⟩)
      · rename_i hfull
        have hfull' : intqFull s.buffer = false := by simpa using hfull
        obtain ⟨q, hq, hcont⟩ : ∃ q, intqPutc s.buffer (adjustChar
            (s.held .leftCtrl || s.held .rightCtrl) (s.held .leftShift || s.held .rightShift)
            (s.held .leftAlt || s.held .rightAlt) s.capsLock c) = some q ∧
            contents q = contents s.buffer ++ [adjustChar (s.held .leftCtrl || s.held .rightCtrl)
              (s.held .leftShift || s.held .rightShift) (s.held .leftAlt || s.held .rightAlt)
              s.capsLock c] :=
          intqPutc_spec hfull'
        rw [hq] at h
        cases h
        exact .inr (.inr ⟨_, hp, hfull', hcont, rfl⟩)
    · -- a modifier or a key of no keymap types nothing
      rename_i hc
      have hp : pressChar s.held s.capsLock code = none := by simp [pressChar, hc]
      split at h <;> cases h <;> exact .inl ⟨hp, rfl, rfl⟩

theorem inputGetc_buffer {s t : Kbd} {c : UInt8} (h : inputGetc s = some (c, t)) :
    contents s.buffer = c :: contents t.buffer := by
  unfold inputGetc at h
  cases he : intqEmpty s.buffer
  · obtain ⟨rest, hs, hg, ht⟩ := intqGetc_spec he
    rw [hg] at h
    cases h
    rw [hs, ht]
  · simp [intqGetc, he] at h

/-- Over any run of keyboard interrupts and reads, the characters read and those still in the
buffer are, in order, those the buffer held before and then the characters the interrupts
stored: `key_cnt` counts each one stored, they are among the characters the key presses typed
(each under the keys held at its press, in the order typed), and none is lost when the buffer
has room for all the characters typed. -/
theorem kbd_delivers_typed_keys (es : List KbdEvent) {s t : Kbd} {out out' : List UInt8}
    (h : runs kbdStep (s, out) es = some (t, out')) :
    ∃ added, out' ++ contents t.buffer = out ++ contents s.buffer ++ added ∧
      t.keyCnt = s.keyCnt + added.length ∧
      added.Sublist (typed s.held s.capsLock (es.filterMap KbdEvent.code)) ∧
      (count s.buffer + (typed s.held s.capsLock (es.filterMap KbdEvent.code)).length <
          intqBufsize → added = typed s.held s.capsLock (es.filterMap KbdEvent.code)) := by
  induction es generalizing s out with
  | nil =>
    cases h
    exact ⟨[], by simp, by simp, by simp [typed], fun _ => rfl⟩
  | cons e es ih =>
    rw [runs_cons] at h
    cases e with
    | interrupt first second =>
      cases hk : keyboardInterrupt s (readScancode first second) with
      | none => simp [kbdStep, hk] at h
      | some u =>
        simp only [kbdStep, hk, Option.map_some, Option.bind_some] at h
        obtain ⟨hheld, hcaps⟩ := keyboardInterrupt_keys hk
        obtain ⟨added, hout, hcnt, hsub, hfit⟩ := ih h
        have hrest : typed u.held u.capsLock (es.filterMap KbdEvent.code) =
            typed (fun m => keyDown m.scancode (s.held m) [readScancode first second])
              (s.capsLock ^^ capsPress (readScancode first second)) (es.filterMap KbdEvent.code) := by
          have hu : u.held = fun m => keyDown m.scancode (s.held m) [readScancode first second] :=
            funext fun m => by rw [hheld m, keyDown_cons]; rfl
          rw [hu, hcaps]
        simp only [List.filterMap_cons, KbdEvent.code, typed, ← hrest]
        rw [← length_contents] at hfit ⊢
        rcases keyboardInterrupt_buffer hk with ⟨hp, hb, hc⟩ | ⟨c, hp, hfull, hb, hc⟩ |
            ⟨c, hp, hfull, hb, hc⟩
        · -- nothing typed
          rw [hp, Option.toList_none, List.nil_append]
          rw [hb] at hout hfit
          exact ⟨added, hout, by rw [hcnt, hc], hsub, hfit⟩
        · -- typed while the buffer is full: dropped
          rw [hp, Option.toList_some, List.singleton_append]
          rw [hb] at hout hfit
          have h63 := intqFull_iff.mp hfull
          refine ⟨added, hout, by rw [hcnt, hc], hsub.cons c, fun hlt => ?_⟩
          rw [List.length_cons, length_contents] at hlt
          simp only [intqBufsize] at h63 hlt
          omega
        · -- typed with room: stored behind what the buffer holds
          rw [hp, Option.toList_some, List.singleton_append]
          rw [hb] at hout hfit
          have hlen : (contents s.buffer ++ [c]).length = (contents s.buffer).length + 1 := by simp
          refine ⟨c :: added, by rw [hout]; simp, by rw [hcnt, hc, List.length_cons]; omega,
            hsub.cons_cons c, fun hlt => ?_⟩
          rw [List.length_cons] at hlt
          rw [hfit (by omega)]
    | getc =>
      cases hg : inputGetc s with
      | none => simp [kbdStep, hg] at h
      | some r =>
        obtain ⟨c, u⟩ := r
        simp only [kbdStep, hg, Option.map_some, Option.bind_some] at h
        obtain ⟨hheld, hcaps, hkc⟩ := inputGetc_keys hg
        have hb := inputGetc_buffer hg
        obtain ⟨added, hout, hcnt, hsub, hfit⟩ := ih h
        simp only [List.filterMap_cons, KbdEvent.code]
        rw [hheld, hcaps] at hsub hfit
        refine ⟨added, by rw [hout, hb]; simp, by rw [hcnt, hkc], hsub, fun hlt => hfit ?_⟩
        rw [← length_contents] at hlt ⊢
        rw [hb, List.length_cons] at hlt
        omega

/-- Shift and `a`, Shift up and `a` again, and one `input_getc`: `A` has been read, `a` waits, and
`key_cnt` is 2. -/
theorem kbd_delivers_typed_keys_sample :
    ∃ t out, runs kbdStep (kbdBoot fun _ => 0, [])
        [.interrupt 0x2a 0, .interrupt 0x1e 0, .interrupt 0xaa 0, .interrupt 0x1e 0, .getc] =
          some (t, out) ∧ out ++ contents t.buffer = [65, 97] ∧ t.keyCnt = 2 := by
  obtain ⟨⟨t, out⟩, hr⟩ := Option.isSome_iff_exists.mp (by decide : (runs kbdStep
    (kbdBoot fun _ => 0, []) [.interrupt 0x2a 0, .interrupt 0x1e 0, .interrupt 0xaa 0,
      .interrupt 0x1e 0, .getc]).isSome = true)
  obtain ⟨added, hout, hcnt, -, hfit⟩ := kbd_delivers_typed_keys _ hr
  have htyped : typed (kbdBoot fun _ => 0).held (kbdBoot fun _ => 0).capsLock
      ([.interrupt 0x2a 0, .interrupt 0x1e 0, .interrupt 0xaa 0, .interrupt 0x1e 0, .getc].filterMap
        KbdEvent.code) = [65, 97] := by decide
  rw [htyped] at hfit
  have hadd : added = [65, 97] := hfit (by decide)
  refine ⟨t, out, hr, ?_, ?_⟩
  · rw [hout, hadd]
    decide
  · rw [hcnt, hadd]
    rfl

end Pintos.Devices
