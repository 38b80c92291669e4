import Mathlib
import Pintos.Kit.Buckets
import Pintos.Kit.StableSort
import Pintos.Kit.Run

/-! hash.c: a table of `bucket_cnt` chained buckets, each a list.c list, an element in the
bucket `hash (e) & (bucket_cnt - 1)` and found by `less`. A bucket is modelled by the sequence
it holds, which `list_push_front` and `list_remove` change as `seqStep` says. The hash, the
comparison and their aux are fixed for the table's life and are section variables here; `ok`
arguments say whether a `malloc` succeeds. -/
namespace Pintos.Lib
open Pintos.Kit

/-- `struct hash` without its function pointers. -/
structure Hash (α : Type) where
  elemCnt : Nat
  bucketCnt : Nat
  buckets : List (List α)

/-- `struct hash_iterator`: its bucket, and its element as a node of that bucket's chain
(0 the head, `length + 1` the tail), or `none` for NULL. -/
structure HashIterator where
  bucket : Nat
  elem : Option Nat

/-- The calls that change or read a table; `ok` is whether `rehash`'s `malloc` succeeds. -/
inductive HashCall (α : Type)
  | insert (new : α) (ok : Bool)
  | replace (new : α) (ok : Bool)
  | find (e : α)
  | delete (e : α) (ok : Bool)
  | clear

/-- `BEST_ELEMS_PER_BUCKET`. -/
def bestElemsPerBucket : Nat := 2

/-- `turn_off_least_1bit`. -/
def turnOffLeast1bit (x : Nat) : Nat := x &&& (x - 1)

/-- `is_power_of_2`. -/
def isPowerOf2 (x : Nat) : Bool := x != 0 && turnOffLeast1bit x == 0

theorem turnOffLeast1bit_ne_zero {x : Nat} (hx : x ≠ 0) (hp : isPowerOf2 x = false) :
    turnOffLeast1bit x ≠ 0 := by
  simpa [isPowerOf2, hx] using hp

theorem turnOffLeast1bit_lt {x : Nat} (hx : x ≠ 0) : turnOffLeast1bit x < x :=
  Nat.lt_of_le_of_lt Nat.and_le_right (by omega)

/-- The `while` loop of `rehash` that rounds the count down to a power of 2, for at most FUEL
turns. Each turn clears a bit, so a count of N ends within N turns; `rehash` enters it with at
least 4, never with 0, on which it would not end. -/
def powerLoop : Nat → Nat → Nat
  | 0, x => x
  | fuel + 1, x => if isPowerOf2 x then x else powerLoop fuel (turnOffLeast1bit x)

/-- The bucket count `rehash` aims at for ELEM_CNT elements. -/
def idealBucketCnt (elemCnt : Nat) : Nat :=
  let n := if elemCnt / bestElemsPerBucket < 4 then 4 else elemCnt / bestElemsPerBucket
  powerLoop n n

section Table
variable {α : Type} [DecidableEq α] (hash : α → UInt32) (less : α → α → Bool)

/-- `find_bucket`'s index: `hash (e) & (bucket_cnt - 1)`. -/
def bucketIdx (cnt : Nat) (e : α) : Nat := (hash e).toNat &&& (cnt - 1)

/-- Bucket `i`. -/
def Hash.bucket (h : Hash α) (i : Nat) : List α := h.buckets.getD i []

/-- `find_elem`: the first element of BUCKET neither less nor greater than E. -/
def findElem (bucket : List α) (e : α) : Option α := bucket.find? fun hi => equiv less hi e

/-- `insert_elem`. -/
def insertElem (h : Hash α) (bucket : Nat) (e : α) : Hash α :=
  { h with elemCnt := h.elemCnt + 1, buckets := pushAt h.buckets bucket e }

/-- `remove_elem`: `list_remove` takes E off the bucket it is on. -/
def removeElem (h : Hash α) (e : α) : Hash α :=
  { h with elemCnt := h.elemCnt - 1, buckets := h.buckets.map (·.erase e) }

/-- `rehash`: move every element, bucket by bucket and each front to back, to the front of its
bucket in a fresh array, unless the count is already right or the array cannot be had. -/
def rehash (ok : Bool) (h : Hash α) : Hash α :=
  let newCnt := idealBucketCnt h.elemCnt
  if newCnt = h.bucketCnt then h
  else if ok then
    { h with bucketCnt := newCnt,
             buckets := h.buckets.foldl (fun nb b => pushAll (bucketIdx hash newCnt) nb b)
               (List.replicate newCnt []) }
  else h

/-- `hash_init`, after its `hash_clear (h, NULL)`; `none` when `malloc` fails. -/
def hashInit (ok : Bool) : Option (Hash α) :=
  if ok then some ⟨0, 4, List.replicate 4 []⟩ else none

/-- `hash_clear`: the emptied table, and the elements DESTRUCTOR is called on, in order. -/
def hashClear (h : Hash α) : Hash α × List α :=
  ({ h with elemCnt := 0, buckets := List.replicate h.bucketCnt [] },
    (List.range h.bucketCnt).flatMap h.bucket)

/-- `hash_insert`. -/
def hashInsert (ok : Bool) (h : Hash α) (new : α) : Hash α × Option α :=
  let bucket := bucketIdx hash h.bucketCnt new
  let old := findElem less (h.bucket bucket) new
  (rehash hash ok (if old = none then insertElem h bucket new else h), old)

/-- `hash_replace`. -/
def hashReplace (ok : Bool) (h : Hash α) (new : α) : Hash α × Option α :=
  let bucket := bucketIdx hash h.bucketCnt new
  let old := findElem less (h.bucket bucket) new
  let h := match old with
    | some old => removeElem h old
    | none => h
  (rehash hash ok (insertElem h bucket new), old)

/-- `hash_find`. -/
def hashFind (h : Hash α) (e : α) : Option α :=
  findElem less (h.bucket (bucketIdx hash h.bucketCnt e)) e

/-- `hash_delete`. -/
def hashDelete (ok : Bool) (h : Hash α) (e : α) : Hash α × Option α :=
  match findElem less (h.bucket (bucketIdx hash h.bucketCnt e)) e with
  | some found => (rehash hash ok (removeElem h found), some found)
  | none => (h, none)

/-- `hash_size`. -/
def hashSize (h : Hash α) : Nat := h.elemCnt

/-- A call and its answer. -/
def hashStep (h : Hash α) : HashCall α → Hash α × Option α
  | .insert new ok => hashInsert hash less ok h new
  | .replace new ok => hashReplace hash less ok h new
  | .find e => (h, hashFind hash less h e)
  | .delete e ok => hashDelete hash less ok h e
  | .clear => ((hashClear h).1, none)

/-- `hash_apply`: the elements ACTION is called on, in order. -/
def hashApply (h : Hash α) : List α := (List.range h.bucketCnt).flatMap h.bucket

/-- `hash_first`: bucket 0, at its head. -/
def hashFirst : HashIterator := ⟨0, some 0⟩

/-- The `while` loop of `hash_next`, entered at the end of bucket B with N buckets after it: on
to the next bucket's first node while that is its tail, and NULL past the last bucket. -/
def nextBucket (h : Hash α) : Nat → Nat → HashIterator
  | 0, b => ⟨b + 1, none⟩
  | n + 1, b => if (h.bucket (b + 1)).length = 0 then nextBucket h n (b + 1) else ⟨b + 1, some 1⟩

/-- `hash_next`: the iterator moved on, and the element it now stands at, `none` for NULL.
Called after it has returned NULL, its `list_next (NULL)` fails an `ASSERT`. -/
def hashNext (h : Hash α) (it : HashIterator) : Option (HashIterator × Option α) :=
  match it.elem with
  | none => none
  | some k =>
    let it := if k + 1 = (h.bucket it.bucket).length + 1
      then nextBucket h (h.bucketCnt - (it.bucket + 1)) it.bucket else ⟨it.bucket, some (k + 1)⟩
    some (it, it.elem.bind fun k => (h.bucket it.bucket)[k - 1]?)

/-- The elements the idiom `hash_first (&i, h); while (hash_next (&i)) ...` visits, over at
most FUEL calls of `hash_next`. -/
def hashIterate (h : Hash α) : Nat → HashIterator → Option (List α)
  | 0, _ => none
  | fuel + 1, it =>
    match hashNext h it with
    | none => none
    | some (_, none) => some []
    | some (it, some e) => (hashIterate h fuel it).map (e :: ·)

end Table


/-! ### The bucket count -/

theorem isPowerOf2_iff {x : Nat} : isPowerOf2 x = true ↔ x.isPowerOfTwo := by
  rw [← Nat.ne_zero_and_sub_one_eq_zero_iff_isPowerOfTwo]
  simp [isPowerOf2, turnOffLeast1bit]

theorem log2_turnOffLeast1bit {x : Nat} (hx : x ≠ 0) (hp : ¬x.isPowerOfTwo) :
    (turnOffLeast1bit x).log2 = x.log2 := by
  have hbit := Nat.and_sub_one_testBit_log2 hx hp
  have hne : turnOffLeast1bit x ≠ 0 := fun h => by
    rw [turnOffLeast1bit] at h
    simp [h] at hbit
  rw [Nat.log2_eq_iff hne]
  exact ⟨Nat.ge_two_pow_of_testBit hbit,
    Nat.lt_of_le_of_lt Nat.and_le_left (Nat.lt_log2_self)⟩

theorem powerLoop_eq {fuel x : Nat} (hx : x ≠ 0) (hf : x ≤ fuel) : powerLoop fuel x = 2 ^ x.log2 := by
  induction fuel generalizing x with
  | zero => omega
  | succ fuel ih =>
    rw [powerLoop]
    split
    · rename_i hp
      obtain ⟨k, rfl⟩ := isPowerOf2_iff.mp hp
      rw [Nat.log2_two_pow]
    · rename_i hp
      have hp' : ¬x.isPowerOfTwo := fun h => hp (isPowerOf2_iff.mpr h)
      have hlt := turnOffLeast1bit_lt hx
      rw [ih (turnOffLeast1bit_ne_zero hx (by simpa using hp)) (by omega),
        log2_turnOffLeast1bit hx hp']

theorem idealBucketCnt_eq (n : Nat) : idealBucketCnt n =
    2 ^ (if n / bestElemsPerBucket < 4 then 4 else n / bestElemsPerBucket).log2 :=
  powerLoop_eq (by split <;> omega) (le_refl _)

theorem idealBucketCnt_pow (n : Nat) : (idealBucketCnt n).isPowerOfTwo := by
  rw [idealBucketCnt_eq]
  exact ⟨_, rfl⟩

theorem four_le_idealBucketCnt (n : Nat) : 4 ≤ idealBucketCnt n := by
  rw [idealBucketCnt_eq]
  have hm : 4 ≤ (if n / bestElemsPerBucket < 4 then 4 else n / bestElemsPerBucket) := by
    split <;> omega
  have hk : 2 ≤ (if n / bestElemsPerBucket < 4 then 4 else n / bestElemsPerBucket).log2 :=
    (Nat.le_log2 (by omega)).mpr hm
  calc 4 = 2 ^ 2 := rfl
    _ ≤ _ := Nat.pow_le_pow_right (by omega) hk

section Table
variable {α : Type} [DecidableEq α] {hash : α → UInt32}

omit [DecidableEq α] in
theorem bucketIdx_lt {cnt : Nat} (hp : cnt.isPowerOfTwo) (e : α) : bucketIdx hash cnt e < cnt := by
  obtain ⟨k, rfl⟩ := hp
  rw [bucketIdx, Nat.and_two_pow_sub_one_eq_mod]
  exact Nat.mod_lt _ (Nat.two_pow_pos k)

end Table

/-! ### The set a table stands for -/

section Abstract
variable {α : Type} [DecidableEq α] (less : α → α → Bool)

/-- The element of S that `less` cannot tell from E, if there is one. -/
noncomputable def absFind (S : Finset α) (e : α) : Option α :=
  if h : ∃ x ∈ S, equiv less x e then some h.choose else none

/-- What a call does to the set, and what it answers. -/
noncomputable def absStep (S : Finset α) : HashCall α → Finset α × Option α
  | .insert new _ =>
    match absFind less S new with
    | some old => (S, some old)
    | none => (insert new S, none)
  | .replace new _ =>
    match absFind less S new with
    | some old => (insert new (S.erase old), some old)
    | none => (insert new S, none)
  | .find e => (S, absFind less S e)
  | .delete e _ =>
    match absFind less S e with
    | some found => (S.erase found, some found)
    | none => (S, none)
  | .clear => (∅, none)

variable {less}

omit [DecidableEq α] in
theorem absFind_some {S : Finset α} {e x : α} (h : absFind less S e = some x) :
    x ∈ S ∧ equiv less x e := by
  unfold absFind at h
  split at h
  · rename_i hex
    cases h
    exact hex.choose_spec
  · cases h

omit [DecidableEq α] in
theorem absFind_none {S : Finset α} {e : α} (h : absFind less S e = none) :
    ∀ x ∈ S, equiv less x e = false := by
  unfold absFind at h
  split at h
  · cases h
  · rename_i hex
    intro x hx
    simpa using fun he => hex ⟨x, hx, he⟩

omit [DecidableEq α] in
theorem absFind_of_none {S : Finset α} {e : α} (h : ∀ x ∈ S, equiv less x e = false) :
    absFind less S e = none :=
  dif_neg fun ⟨x, hx, he⟩ => by simp [h x hx] at he

end Abstract

/-! ### The table stands for a set -/

section Refines
variable {α : Type} [DecidableEq α] {hash : α → UInt32} {less : α → α → Bool}

variable (hash less) in
/-- H keeps the representation invariant and holds the elements of S, no two of which `less`
can tell apart. -/
structure Represents (h : Hash α) (S : Finset α) : Prop where
  pow : h.bucketCnt.isPowerOfTwo
  four_le : 4 ≤ h.bucketCnt
  length : h.buckets.length = h.bucketCnt
  keyed : Keyed (bucketIdx hash h.bucketCnt) h.buckets
  nodup : h.buckets.flatten.Nodup
  count : h.elemCnt = h.buckets.flatten.length
  mem : ∀ x, x ∈ h.buckets.flatten ↔ x ∈ S
  apart : ∀ x ∈ S, ∀ y ∈ S, equiv less x y → x = y

variable {h : Hash α} {S : Finset α}

theorem Represents.size (hr : Represents hash less h S) : hashSize h = S.card := by
  have hS : S = h.buckets.flatten.toFinset := Finset.ext fun x => by simp [hr.mem]
  rw [hashSize, hr.count, hS, List.toFinset_card_of_nodup hr.nodup]

omit [DecidableEq α] in
theorem Represents.of_perm (hr : Represents hash less h S) {h' : Hash α}
    (hpow : h'.bucketCnt.isPowerOfTwo) (h4 : 4 ≤ h'.bucketCnt)
    (hlen : h'.buckets.length = h'.bucketCnt) (hkey : Keyed (bucketIdx hash h'.bucketCnt) h'.buckets)
    (hp : h'.buckets.flatten.Perm h.buckets.flatten) (hcnt : h'.elemCnt = h.elemCnt) :
    Represents hash less h' S where
  pow := hpow
  four_le := h4
  length := hlen
  keyed := hkey
  nodup := hp.nodup_iff.mpr hr.nodup
  count := by rw [hcnt, hr.count, hp.length_eq]
  mem x := by rw [hp.mem_iff, hr.mem]
  apart := hr.apart

omit [DecidableEq α] in
theorem Represents.rehash (hr : Represents hash less h S) (ok : Bool) :
    Represents hash less (Lib.rehash hash ok h) S := by
  by_cases hc : idealBucketCnt h.elemCnt = h.bucketCnt
  · dsimp only [Lib.rehash]
    rwa [if_pos hc]
  cases ok
  · dsimp only [Lib.rehash]
    rwa [if_neg hc, if_neg Bool.false_ne_true]
  · -- every element moves to the bucket the new count gives it
    dsimp only [Lib.rehash]
    rw [if_neg hc, if_pos rfl]
    have hpow := idealBucketCnt_pow h.elemCnt
    have hfold : h.buckets.foldl (fun nb b => pushAll (bucketIdx hash (idealBucketCnt h.elemCnt)) nb b)
        (List.replicate (idealBucketCnt h.elemCnt) []) =
        pushAll (bucketIdx hash (idealBucketCnt h.elemCnt)) (List.replicate (idealBucketCnt h.elemCnt) [])
          h.buckets.flatten := by
      rw [pushAll, List.foldl_flatten]
      rfl
    refine hr.of_perm hpow (four_le_idealBucketCnt _) ?_ ?_ ?_ rfl <;> simp only [hfold]
    · rw [length_pushAll, List.length_replicate]
    · exact (keyed_replicate _).pushAll _
    · simpa using @pushAll_perm _ (bucketIdx hash (idealBucketCnt h.elemCnt))
        (List.replicate (idealBucketCnt h.elemCnt) []) h.buckets.flatten
        fun x _ => by simpa using bucketIdx_lt hpow x


omit [DecidableEq α] in
theorem Represents.clear (hr : Represents hash less h S) : Represents hash less (hashClear h).1 ∅ where
  pow := hr.pow
  four_le := hr.four_le
  length := List.length_replicate ..
  keyed := keyed_replicate _
  nodup := by simp [hashClear]
  count := by simp [hashClear]
  mem x := by simp [hashClear]
  apart := by simp

theorem Represents.removeElem (hr : Represents hash less h S) {x : α} (hx : x ∈ S) :
    Represents hash less (Lib.removeElem h x) (S.erase x) := by
  have hfl : (Lib.removeElem h x).buckets.flatten = h.buckets.flatten.erase x :=
    flatten_map_erase hr.nodup
  refine ⟨hr.pow, hr.four_le, by simp [Lib.removeElem, hr.length], hr.keyed.map_erase, ?_, ?_,
    fun y => ?_, fun a ha b hb => hr.apart a (Finset.mem_of_mem_erase ha) b (Finset.mem_of_mem_erase hb)⟩
  · rw [hfl]
    exact hr.nodup.erase x
  · rw [hfl, List.length_erase_of_mem ((hr.mem x).mpr hx), ← hr.count]
    rfl
  · rw [hfl, hr.nodup.mem_erase_iff, Finset.mem_erase, hr.mem]

end Refines

/-! ### Each call -/

section Calls
variable {α : Type} [DecidableEq α] {hash : α → UInt32} {less : α → α → Bool}
  (hl : IsStrictWeakOrder α fun a b => less a b) (hc : ∀ a b, equiv less a b → hash a = hash b)
variable {h : Hash α} {S : Finset α}
include hl

omit [DecidableEq α] in
theorem Represents.absFind_of_mem (hr : Represents hash less h S) {x e : α} (hx : x ∈ S)
    (he : equiv less x e) : absFind less S e = some x := by
  have hex : ∃ x ∈ S, equiv less x e := ⟨x, hx, he⟩
  unfold absFind
  rw [dif_pos hex]
  obtain ⟨hyS, hye⟩ := hex.choose_spec
  exact congrArg some (hr.apart _ hyS x hx (equiv_trans hl hye (equiv_symm he)))

include hc in
omit [DecidableEq α] in
/-- `hash_find` answers with the element of the set that `less` cannot tell from E: equivalent
elements hash alike, so it is in E's bucket. -/
theorem Represents.hashFind (hr : Represents hash less h S) (e : α) :
    Lib.hashFind hash less h e = absFind less S e := by
  by_cases hex : ∃ x ∈ S, equiv less x e
  · obtain ⟨x, hxS, hxe⟩ := hex
    rw [hr.absFind_of_mem hl hxS hxe]
    have hxb : x ∈ h.bucket (bucketIdx hash h.bucketCnt e) := by
      rw [bucketIdx, ← hc x e hxe]
      exact hr.keyed.mem_getD ((hr.mem x).mpr hxS)
    obtain ⟨y, hy⟩ := Option.isSome_iff_exists.mp
      ((List.find?_isSome (p := fun hi => equiv less hi e)).mpr ⟨x, hxb, hxe⟩)
    have hyS : y ∈ S := (hr.mem y).mp (mem_flatten_of_getD (List.mem_of_find?_eq_some hy))
    have hye := List.find?_some hy
    rw [Lib.hashFind, findElem, hy, hr.apart y hyS x hxS (equiv_trans hl hye (equiv_symm hxe))]
  · rw [absFind_of_none fun x hx => by simpa using fun h => hex ⟨x, hx, h⟩]
    exact List.find?_eq_none.mpr fun y hy hye =>
      hex ⟨y, (hr.mem y).mp (mem_flatten_of_getD hy), hye⟩

theorem Represents.insertElem (hr : Represents hash less h S) {new : α}
    (hnone : ∀ x ∈ S, equiv less x new = false) :
    Represents hash less (Lib.insertElem h (bucketIdx hash h.bucketCnt new) new) (insert new S) := by
  have hnew : new ∉ h.buckets.flatten := fun hm => by
    have hfalse := hnone new ((hr.mem new).mp hm)
    rw [equiv_refl hl new] at hfalse
    cases hfalse
  have hp := flatten_pushAt new (show bucketIdx hash h.bucketCnt new < h.buckets.length by
    rw [hr.length]; exact bucketIdx_lt hr.pow new)
  refine ⟨hr.pow, hr.four_le, by simp [Lib.insertElem, hr.length], hr.keyed.pushAt rfl,
    hp.nodup_iff.mpr (List.nodup_cons.mpr ⟨hnew, hr.nodup⟩),
    by simp [Lib.insertElem, hp.length_eq, hr.count], fun x => by
      simp [Lib.insertElem, hp.mem_iff, hr.mem], ?_⟩
  intro x hx y hy hxy
  rw [Finset.mem_insert] at hx hy
  rcases hx with rfl | hx <;> rcases hy with rfl | hy
  · rfl
  · exact absurd (equiv_symm hxy) (by simp [hnone y hy])
  · exact absurd hxy (by simp [hnone x hx])
  · exact hr.apart x hx y hy hxy


include hc in
/-- Each call keeps the table standing for the set the call leaves, and answers as the set
does. -/
theorem Represents.step (hr : Represents hash less h S) (c : HashCall α) :
    Represents hash less (hashStep hash less h c).1 (absStep less S c).1 ∧
      (hashStep hash less h c).2 = (absStep less S c).2 := by
  have hfind := hr.hashFind hl hc
  cases c with
  | insert new ok =>
    simp only [hashStep, hashInsert, absStep]
    rw [show findElem less (h.bucket (bucketIdx hash h.bucketCnt new)) new = absFind less S new
      from hfind new]
    cases hf : absFind less S new with
    | some old => exact ⟨hr.rehash ok, rfl⟩
    | none => exact ⟨(hr.insertElem hl (absFind_none hf)).rehash ok, rfl⟩
  | replace new ok =>
    simp only [hashStep, hashReplace, absStep]
    rw [show findElem less (h.bucket (bucketIdx hash h.bucketCnt new)) new = absFind less S new
      from hfind new]
    cases hf : absFind less S new with
    | some old =>
      obtain ⟨hold, hoe⟩ := absFind_some hf
      have hnone : ∀ x ∈ S.erase old, equiv less x new = false := fun x hx => by
        rw [Finset.mem_erase] at hx
        cases hxe : equiv less x new
        · rfl
        · exact absurd (hr.apart x hx.2 old hold (equiv_trans hl hxe (equiv_symm hoe))) hx.1
      exact ⟨((hr.removeElem hold).insertElem hl hnone).rehash ok, rfl⟩
    | none => exact ⟨(hr.insertElem hl (absFind_none hf)).rehash ok, rfl⟩
  | find e => exact ⟨hr, hfind e⟩
  | delete e ok =>
    simp only [hashStep, hashDelete, absStep]
    rw [show findElem less (h.bucket (bucketIdx hash h.bucketCnt e)) e = absFind less S e
      from hfind e]
    cases hf : absFind less S e with
    | some found => exact ⟨(hr.removeElem (absFind_some hf).1).rehash ok, rfl⟩
    | none => exact ⟨hr, rfl⟩
  | clear => exact ⟨hr.clear, rfl⟩

include hc in
theorem Represents.run (hr : Represents hash less h S) (cs : List (HashCall α)) :
    Represents hash less (replay (hashStep hash less) h cs).1 (replay (absStep less) S cs).1 ∧
      (replay (hashStep hash less) h cs).2 = (replay (absStep less) S cs).2 :=
  replay_sim (R := Represents hash less) (fun _ _ c hst (_ : True) => hst.step hl hc c) h S cs hr
    fun _ _ => trivial

end Calls

/-! ### Every run -/

section Runs
variable {α : Type} [DecidableEq α] {hash : α → UInt32} {less : α → α → Bool}

omit [DecidableEq α] in
theorem represents_init {ok : Bool} {h0 : Hash α} (hinit : hashInit ok = some h0) :
    Represents hash less h0 ∅ := by
  unfold hashInit at hinit
  split at hinit
  · cases hinit
    exact ⟨⟨2, rfl⟩, le_refl 4, rfl, keyed_replicate 4, by simp, rfl, by simp, by simp⟩
  · cases hinit

theorem hash_refines_finset (hl : IsStrictWeakOrder α fun a b => less a b)
    (hc : ∀ a b, equiv less a b → hash a = hash b) {ok : Bool} {h0 : Hash α}
    (hinit : hashInit ok = some h0) (cs : List (HashCall α)) :
    Represents hash less (replay (hashStep hash less) h0 cs).1 (replay (absStep less) ∅ cs).1 ∧
      (replay (hashStep hash less) h0 cs).2 = (replay (absStep less) ∅ cs).2 ∧
      hashSize (replay (hashStep hash less) h0 cs).1 = (replay (absStep less) ∅ cs).1.card := by
  obtain ⟨hr, hans⟩ := (represents_init hinit).run hl hc cs
  exact ⟨hr, hans, hr.size⟩

theorem hash_refines_finset_sample :
    (replay (absStep fun a b : Nat => decide (a < b)) ∅
      [.insert 5 true, .insert 9 false, .replace 5 true, .delete 9 true]).1.card = 1 := by
  have hl : IsStrictWeakOrder Nat fun a b => decide (a < b) = true := isStrictWeakOrder_lt
  have hc : ∀ a b, equiv (fun a b : Nat => decide (a < b)) a b → (fun n : Nat => n.toUInt32) a =
      (fun n : Nat => n.toUInt32) b := fun a b h => by
    rw [eq_of_equiv_lt h]
  have h := (hash_refines_finset hl hc (show hashInit true = some ⟨0, 4, List.replicate 4 []⟩
    from rfl) [.insert 5 true, .insert 9 false, .replace 5 true, .delete 9 true]).2.2
  rw [← h]
  rfl

end Runs


/-! ### Iteration -/

section Iteration
variable {α : Type} {h : Hash α}

/-- The elements of the buckets after bucket B. -/
def later (h : Hash α) (b : Nat) : List α := (h.buckets.drop (b + 1)).flatten

theorem later_succ {b : Nat} (hb : b + 1 < h.buckets.length) :
    later h b = h.bucket (b + 1) ++ later h (b + 1) := by
  rw [later, List.drop_eq_getElem_cons hb, List.flatten_cons, Hash.bucket,
    List.getD_eq_getElem?_getD, List.getElem?_eq_getElem hb, Option.getD_some]
  rfl

/-- The loop of `hash_next` stops at the first bucket after B that has an element, or at NULL
when there is none. -/
theorem nextBucket_spec (hlen : h.buckets.length = h.bucketCnt) :
    ∀ n b, n = h.bucketCnt - (b + 1) →
      (later h b = [] ∧ (nextBucket h n b).elem = none) ∨
      ∃ b', nextBucket h n b = ⟨b', some 1⟩ ∧ h.bucket b' ≠ [] ∧ later h b = h.bucket b' ++ later h b'
  | 0, b, hn => .inl ⟨by rw [later, List.drop_eq_nil_of_le (by omega)]; rfl, rfl⟩
  | n + 1, b, hn => by
    have hsucc := later_succ (h := h) (b := b) (by omega)
    rw [nextBucket]
    split
    · -- an empty bucket: the loop goes on
      rename_i hemp
      rw [hsucc, List.length_eq_zero_iff.mp hemp, List.nil_append]
      exact nextBucket_spec hlen n (b + 1) (by omega)
    · rename_i hne
      exact .inr ⟨b + 1, rfl, fun h0 => hne (by rw [h0]; rfl), hsucc⟩

theorem hashNext_end {b k : Nat} (hk : k = (h.bucket b).length) :
    hashNext h ⟨b, some k⟩ = some (nextBucket h (h.bucketCnt - (b + 1)) b,
      (nextBucket h (h.bucketCnt - (b + 1)) b).elem.bind
        fun k => (h.bucket (nextBucket h (h.bucketCnt - (b + 1)) b).bucket)[k - 1]?) := by
  simp [hashNext, hk]

theorem hashNext_mid {b k : Nat} (hk : k < (h.bucket b).length) :
    hashNext h ⟨b, some k⟩ = some (⟨b, some (k + 1)⟩, (h.bucket b)[k]?) := by
  simp [hashNext, show k ≠ (h.bucket b).length by omega]

/-- From node K of bucket B on, the iteration visits the rest of that bucket and then every
later bucket, given a call of `hash_next` for each and one for the NULL. -/
theorem hashIterate_at (hlen : h.buckets.length = h.bucketCnt) :
    ∀ fuel b k, k ≤ (h.bucket b).length → ((h.bucket b).drop k ++ later h b).length < fuel →
      hashIterate h fuel ⟨b, some k⟩ = some ((h.bucket b).drop k ++ later h b)
  | 0, _, _, _, hf => absurd hf (Nat.not_lt_zero _)
  | fuel + 1, b, k, hk, hf => by
    rcases Nat.lt_or_eq_of_le hk with hk | hk
    · -- an element of this bucket
      rw [hashIterate, hashNext_mid hk, List.getElem?_eq_getElem hk]
      simp only
      rw [hashIterate_at hlen fuel b (k + 1) hk (by
        simp only [List.length_append, List.length_drop] at hf ⊢; omega),
        Option.map_some, List.drop_eq_getElem_cons hk, List.cons_append]
    · -- the end of this bucket: on to the next that has an element
      have hd : (h.bucket b).drop k = [] := List.drop_eq_nil_of_le (le_of_eq hk.symm)
      rw [hd, List.nil_append] at hf ⊢
      rw [hashIterate, hashNext_end hk]
      rcases nextBucket_spec hlen _ b rfl with ⟨hl, hn⟩ | ⟨b', hn, hb', hl⟩
      · simp [hn, hl]
      · obtain ⟨x, xs, hx⟩ := List.exists_cons_of_ne_nil hb'
        rw [hl, hx] at hf
        rw [hn]
        simp only [Option.bind_some, hx, Nat.sub_self, List.getElem?_cons_zero]
        rw [hashIterate_at hlen fuel b' 1 (by simp [hx]) (by simpa [hx] using hf)]
        simp [hl, hx]

variable [DecidableEq α] {hash : α → UInt32} {less : α → α → Bool} {S : Finset α}

omit [DecidableEq α] in
theorem hashIterate_first (hr : Represents hash less h S) {fuel : Nat} (hf : hashSize h < fuel) :
    hashIterate h fuel hashFirst = some h.buckets.flatten := by
  have hlen := hr.length
  have hpos : 0 < h.buckets.length := by have := hr.four_le; omega
  have hfl : h.buckets.flatten = h.bucket 0 ++ later h 0 := by
    obtain ⟨b, bs, hbs⟩ := List.exists_cons_of_length_pos hpos
    simp [hbs, later, Hash.bucket]
  rw [hfl]
  exact hashIterate_at hlen fuel 0 0 (Nat.zero_le _) (by
    rw [List.drop_zero, ← hfl, ← hr.count]; exact hf)

omit [DecidableEq α] in
theorem hashApply_eq (hr : Represents hash less h S) : hashApply h = h.buckets.flatten := by
  rw [hashApply, ← hr.length]
  exact flatMap_range_getD h.buckets

theorem Represents.count_flatten (hr : Represents hash less h S) (x : α) :
    h.buckets.flatten.count x = if x ∈ S then 1 else 0 := by
  split
  · exact List.count_eq_one_of_mem hr.nodup ((hr.mem x).mpr ‹_›)
  · exact List.count_eq_zero_of_not_mem fun hm => ‹x ∉ S› ((hr.mem x).mp hm)

theorem hash_iteration_visits_each_once (hl : IsStrictWeakOrder α fun a b => less a b)
    (hc : ∀ a b, equiv less a b → hash a = hash b) {ok : Bool} {h0 : Hash α}
    (hinit : hashInit ok = some h0) (cs : List (HashCall α)) :
    let h := (replay (hashStep hash less) h0 cs).1
    let S := (replay (absStep less) ∅ cs).1
    (∀ fuel, hashSize h < fuel → ∃ l, hashIterate h fuel hashFirst = some l ∧
      ∀ x, l.count x = if x ∈ S then 1 else 0) ∧
    ∀ x, (hashApply h).count x = if x ∈ S then 1 else 0 := by
  intro h S
  have hr : Represents hash less h S := ((represents_init hinit).run hl hc cs).1
  exact ⟨fun fuel hf => ⟨_, hashIterate_first hr hf, hr.count_flatten⟩, fun x => by
    rw [hashApply_eq hr, hr.count_flatten]⟩

theorem hash_iteration_visits_each_once_sample :
    hashIterate (replay (hashStep (fun n : Nat => n.toUInt32) fun a b : Nat => decide (a < b))
        ⟨0, 4, List.replicate 4 []⟩ [.insert 5 true, .insert 9 true, .insert 6 true]).1 4
        hashFirst = some [9, 5, 6] ∧
      ∀ x, [9, 5, 6].count x = if x ∈ (replay (absStep fun a b : Nat => decide (a < b)) ∅
        [.insert 5 true, .insert 9 true, .insert 6 true]).1 then 1 else 0 := by
  have hl : IsStrictWeakOrder Nat fun a b => decide (a < b) = true := isStrictWeakOrder_lt
  have hc : ∀ a b, equiv (fun a b : Nat => decide (a < b)) a b → (fun n : Nat => n.toUInt32) a =
      (fun n : Nat => n.toUInt32) b := fun a b h => by
    rw [eq_of_equiv_lt h]
  obtain ⟨hit, -⟩ := hash_iteration_visits_each_once hl hc
    (show hashInit true = some ⟨0, 4, List.replicate 4 []⟩ from rfl)
    [.insert 5 true, .insert 9 true, .insert 6 true]
  obtain ⟨l, hl', hcount⟩ := hit 4 (by decide)
  have hl5 : l = [9, 5, 6] := by
    rw [← Option.some_inj, ← hl']
    rfl
  exact ⟨hl5 ▸ hl', hl5 ▸ hcount⟩

end Iteration

end Pintos.Lib