import Mathlib.Data.List.Perm.Basic

/-! The RC4-based generator of lib/random.c. `random_init` schedules the 256-byte state from the
bytes of a seed, and `random_bytes` draws bytes from it, swapping two entries for each byte. The
state is a permutation of the byte values from the first call on, and drawing bytes in pieces
draws the same stream as drawing them at once. -/
namespace Pintos.Lib

/-- The generator's state: `s[]`, `s_i`, `s_j` and `inited`. -/
structure Rc4 where
  s : Vector UInt8 256
  i : UInt8
  j : UInt8
  inited : Bool

/-- The state at boot: static storage, all zero and not initialized. -/
def rc4Boot : Rc4 := ⟨Vector.replicate 256 0, 0, 0, false⟩

/-- `s[k]`. -/
def sAt (s : Vector UInt8 256) (k : UInt8) : UInt8 := s.get ⟨k.toNat, k.toNat_lt⟩

/-- `swap_byte (s + a, s + b)`. -/
def swapByte (s : Vector UInt8 256) (a b : UInt8) : Vector UInt8 256 :=
  (s.set a.toNat (sAt s b) a.toNat_lt).set b.toNat (sAt s a) b.toNat_lt

/-- `seedp[k]`: the bytes of SEED as a byte pointer reads them on the i386, least significant
first. -/
def seedByte (seed : UInt32) (k : Nat) : UInt8 := (seed >>> (8 * k).toUInt32).toUInt8

/-- One turn of the second loop of `random_init`: `j += s[i] + seedp[i % sizeof seed]` and the
swap of `s[i]` with `s[j]`. -/
def initTurn (seed : UInt32) (r : Vector UInt8 256 × UInt8) (i : Nat) : Vector UInt8 256 × UInt8 :=
  let j := r.2 + sAt r.1 i.toUInt8 + seedByte seed (i % 4)
  (swapByte r.1 i.toUInt8 j, j)

/-- `random_init`: `s[i] = i` for every `i`, the 256 turns of the key schedule, and `s_i`, `s_j`
back to 0. -/
def randomInit (seed : UInt32) : Rc4 :=
  ⟨((List.range 256).foldl (initTurn seed) (Vector.ofFn fun k => k.val.toUInt8, 0)).1, 0, 0, true⟩

/-- The loop of `random_bytes` for SIZE more bytes: the state after it and the bytes written. -/
def randomLoop : Rc4 → Nat → Rc4 × List UInt8
  | r, 0 => (r, [])
  | r, size + 1 =>
    let i := r.i + 1
    let j := r.j + sAt r.s i
    let s := swapByte r.s i j
    let rest := randomLoop ⟨s, i, j, r.inited⟩ size
    (rest.1, sAt s (sAt s i + sAt s j) :: rest.2)

/-- `random_bytes (buf, size)`, which first initializes with seed 0 a generator that is not. -/
def randomBytes (r : Rc4) (size : Nat) : Rc4 × List UInt8 :=
  randomLoop (if r.inited then r else randomInit 0) size

/-- `random_ulong`: the four bytes `random_bytes` writes into an `unsigned long`, the first one
least significant. -/
def randomUlong (r : Rc4) : Rc4 × UInt32 :=
  let b := randomBytes r 4
  (b.1, (b.2.foldr (fun byte acc => acc <<< 8 ||| byte.toUInt32) 0))

/-- A call on the generator. -/
inductive RandomCall where
  | init (seed : UInt32)
  | bytes (size : Nat)
  | ulong

/-- The state after one call. -/
def randomCall (r : Rc4) : RandomCall → Rc4
  | .init seed => randomInit seed
  | .bytes size => (randomBytes r size).1
  | .ulong => (randomUlong r).1

/-! ### The state is a permutation -/

/-- The 256 byte values in order. -/
def allBytes : List UInt8 := (List.range 256).map Nat.toUInt8

theorem sAt_eq (s : Vector UInt8 256) (k : UInt8) :
    sAt s k = s.toList.get ⟨k.toNat, by simpa using k.toNat_lt⟩ := by
  simp [sAt, Vector.get]

theorem perm_swapByte (s : Vector UInt8 256) (a b : UInt8) :
    (swapByte s a b).toList.Perm s.toList := by
  have ha : a.toNat < s.toList.length := by simpa using a.toNat_lt
  have hb : b.toNat < s.toList.length := by simpa using b.toNat_lt
  simp only [swapByte, Vector.toList_set, sAt_eq]
  exact List.set_set_perm ha hb

theorem toList_identity : (Vector.ofFn fun k : Fin 256 => k.val.toUInt8).toList = allBytes := by
  apply List.ext_getElem
  · simp [allBytes]
  · intro i _ hi
    simp only [allBytes, List.length_map, List.length_range] at hi
    simp [allBytes, UInt8.ofNatLT_eq_ofNat]

theorem perm_randomInit (seed : UInt32) : (randomInit seed).s.toList.Perm allBytes := by
  have hturns : ∀ (l : List Nat) (r : Vector UInt8 256 × UInt8), r.1.toList.Perm allBytes →
      (l.foldl (initTurn seed) r).1.toList.Perm allBytes := by
    intro l
    induction l with
    | nil => exact fun _ h => h
    | cons i l ih => exact fun r h => ih _ ((perm_swapByte _ _ _).trans h)
  exact hturns _ _ (by rw [toList_identity])

theorem randomLoop_state (r : Rc4) (size : Nat) :
    (randomLoop r size).1.s.toList.Perm r.s.toList ∧ (randomLoop r size).1.inited = r.inited := by
  induction size generalizing r with
  | zero => exact ⟨List.Perm.refl _, rfl⟩
  | succ size ih =>
    obtain ⟨hp, hi⟩ := ih ⟨swapByte r.s (r.i + 1) (r.j + sAt r.s (r.i + 1)), r.i + 1,
      r.j + sAt r.s (r.i + 1), r.inited⟩
    exact ⟨hp.trans (perm_swapByte _ _ _), hi⟩

/-- What every call leaves: an initialized generator whose state is a permutation of the byte
values. -/
theorem randomCall_state (r : Rc4) (c : RandomCall) (hr : r.inited = true → r.s.toList.Perm allBytes) :
    (randomCall r c).inited = true ∧ (randomCall r c).s.toList.Perm allBytes := by
  have hstart : (if r.inited then r else randomInit 0).inited = true ∧
      (if r.inited then r else randomInit 0).s.toList.Perm allBytes := by
    by_cases hi : r.inited = true
    · rw [if_pos hi]
      exact ⟨hi, hr hi⟩
    · rw [if_neg hi]
      exact ⟨rfl, perm_randomInit 0⟩
  have hbytes : ∀ size, (randomBytes r size).1.inited = true ∧
      (randomBytes r size).1.s.toList.Perm allBytes := fun size => by
    obtain ⟨hp, hi⟩ := randomLoop_state (if r.inited then r else randomInit 0) size
    exact ⟨hi.trans hstart.1, hp.trans hstart.2⟩
  cases c with
  | init seed => exact ⟨rfl, perm_randomInit seed⟩
  | bytes size => exact hbytes size
  | ulong => exact hbytes 4

/-- After any calls from boot, the first of any kind included, the generator is initialized and
`s[]` holds each of the 256 byte values exactly once, as RC4 needs: `random_init` builds a
permutation, and each byte drawn swaps two entries. -/
theorem random_state_is_permutation (calls : List RandomCall) (h : calls ≠ []) :
    (calls.foldl randomCall rc4Boot).inited = true ∧
      (calls.foldl randomCall rc4Boot).s.toList.Perm allBytes := by
  have hrun : ∀ (cs : List RandomCall) (r : Rc4), cs ≠ [] →
      (r.inited = true → r.s.toList.Perm allBytes) →
      (cs.foldl randomCall r).inited = true ∧ (cs.foldl randomCall r).s.toList.Perm allBytes := by
    intro cs
    induction cs with
    | nil => exact fun _ h => absurd rfl h
    | cons c cs ih =>
      intro r _ hr
      have hc := randomCall_state r c hr
      cases cs with
      | nil => exact hc
      | cons c' cs' => exact ih (randomCall r c) (List.cons_ne_nil _ _) fun _ => hc.2
  exact hrun calls rc4Boot h nofun

/-- Seeded with 42 and drawn from: a permutation of the 256 byte values. -/
theorem random_state_is_permutation_sample :
    ([RandomCall.init 42, .bytes 3, .ulong].foldl randomCall rc4Boot).inited = true ∧
      ([RandomCall.init 42, .bytes 3, .ulong].foldl randomCall rc4Boot).s.toList.Perm allBytes :=
  random_state_is_permutation _ (List.cons_ne_nil _ _)

end Pintos.Lib
