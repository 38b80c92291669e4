import Pintos.Threads.Palloc
import Mathlib.Data.List.Nodup

/-! The block allocator of threads/malloc.c over the page allocator of threads/palloc.c.
Addresses are byte addresses, so the page number `palloc` works with is an address divided by
`PGSIZE`. Every call runs under its descriptor's lock, so each is one step. Block contents,
the `0xcc` poisoning of `free` and the copy of `realloc` are not modelled. -/
namespace Pintos.Threads
open Pintos.Kit

/-- `sizeof (struct arena)`: `magic`, `desc` and `free_cnt`, four bytes each. -/
def arenaSize : Nat := 12

/-- `struct desc` without its list and lock, which `Heap` keeps. -/
structure Desc where
  blockSize : Nat
  blocksPerArena : Nat
  deriving DecidableEq, Repr

/-- The loop of `malloc_init` from `block_size`, with `n` slots of `descs` left. -/
def descsFrom : Nat → Nat → List Desc
  | 0, _ => []
  | n + 1, blockSize =>
    if blockSize < pgSize / 2 then
      ⟨blockSize, (pgSize - arenaSize) / blockSize⟩ :: descsFrom n (blockSize * 2)
    else []

/-- `descs` after `malloc_init`. -/
def descs : List Desc := descsFrom 10 16

theorem descs_eq : descs = [⟨16, 255⟩, ⟨32, 127⟩, ⟨64, 63⟩, ⟨128, 31⟩, ⟨256, 15⟩, ⟨512, 7⟩,
    ⟨1024, 3⟩] := by decide

/-- The descriptor an arena's `desc` points to. -/
def descAt (d : Nat) : Desc := descs.getD d ⟨1, 0⟩

/-- `DIV_ROUND_UP (size + sizeof *a, PGSIZE)` in `size_t`, which wraps at 2^32. -/
def pageCnt (size : UInt32) : UInt32 := (size + 12 + 4096 - 1) / 4096

/-- `struct arena`: the index of its descriptor in `descs`, none for a big block, and
`free_cnt`. `magic` is always `ARENA_MAGIC`: an arena is a page that has one. -/
structure Arena where
  desc : Option Nat
  freeCnt : Nat
  deriving DecidableEq, Repr

/-- The pages an arena holds: one, or `free_cnt` for a big block. -/
def Arena.pages (ar : Arena) : Nat := if ar.desc.isSome then 1 else ar.freeCnt

/-- `arena_to_block`. -/
def arenaToBlock (a : Nat) (d : Desc) (idx : Nat) : Nat := a + arenaSize + idx * d.blockSize

/-- The heap: the page allocator, the arenas by address, each descriptor's `free_list` from
front to back, the blocks handed out and not yet freed, and what the last call returned, 0 for
a null pointer. -/
structure Heap where
  pal : World
  arenas : Nat → Option Arena
  freeLists : Nat → List Nat
  live : List Nat
  ret : Nat

/-- `palloc_get_multiple (0, n)`: the allocator after it, and the address of the pages. -/
def pallocGet (pal : World) (n : Nat) : World × Option Nat :=
  match pal.alloc.getMultiple ⟨false, false, false⟩ n with
  | (a, .pages page) => (⟨a, pal.live ++ [⟨false, page, n⟩]⟩, some (page * pgSize))
  | (a, _) => (⟨a, pal.live⟩, none)

/-- `palloc_free_multiple (a, n)`. -/
def pallocFree (pal : World) (a n : Nat) : Option World := pal.step (.free ⟨false, a / pgSize, n⟩)

namespace Heap

def init (initRamPages userPageLimit : Nat) : Option Heap :=
  (World.init initRamPages userPageLimit).map fun pal => ⟨pal, fun _ => none, fun _ => [], [], 0⟩

/-- `block_to_arena`, with its `ASSERT`s on the arena's magic and the block's alignment. -/
def blockToArena (h : Heap) (b : Nat) : Option (Nat × Arena) :=
  match h.arenas (b / pgSize * pgSize) with
  | none => none
  | some ar =>
    match ar.desc with
    | some d =>
      if ((b % pgSize : Nat) - arenaSize : Int) % ((descAt d).blockSize : Int) = 0 then
        some (b / pgSize * pgSize, ar)
      else none
    | none => if b % pgSize = arenaSize then some (b / pgSize * pgSize, ar) else none

/-- `block_size`: the bytes allocated for a block. -/
def blockSize (h : Heap) (b : Nat) : Nat :=
  match h.blockToArena b with
  | some (_, ar) =>
    match ar.desc with
    | some d => (descAt d).blockSize
    | none => pgSize * ar.freeCnt - b % pgSize
  | none => 0

/-- A fresh page `a` from `palloc_get_page` as an arena of descriptor `d`, its blocks pushed on
the back of the free list. -/
def newArena (h : Heap) (pal : World) (d a : Nat) : Heap :=
  { h with
    pal := pal
    arenas := Function.update h.arenas a (some ⟨some d, (descAt d).blocksPerArena⟩)
    freeLists := Function.update h.freeLists d
      (h.freeLists d ++ (List.range (descAt d).blocksPerArena).map (arenaToBlock a (descAt d))) }

/-- `list_pop_front` of descriptor `d`'s free list, and `a->free_cnt--` in its arena. -/
def popBlock (h : Heap) (d : Nat) : Option Heap :=
  match h.freeLists d with
  | [] => none
  | b :: rest =>
    (h.blockToArena b).map fun (a, ar) =>
      { h with
        freeLists := Function.update h.freeLists d rest
        arenas := Function.update h.arenas a (some { ar with freeCnt := ar.freeCnt - 1 })
        live := h.live ++ [b]
        ret := b }

/-- `malloc`; `none` where an `ASSERT` fails. -/
def malloc (h : Heap) (size : UInt32) : Option Heap :=
  if size = 0 then some { h with ret := 0 }
  else
    match descs.findIdx? fun d => size.toNat ≤ d.blockSize with
    | none =>
      match pallocGet h.pal (pageCnt size).toNat with
      | (pal, none) => some { h with pal := pal, ret := 0 }
      | (pal, some a) =>
        some { h with
          pal := pal
          arenas := Function.update h.arenas a (some ⟨none, (pageCnt size).toNat⟩)
          live := h.live ++ [a + arenaSize]
          ret := a + arenaSize }
    | some d =>
      if h.freeLists d = [] then
        match pallocGet h.pal 1 with
        | (pal, none) => some { h with pal := pal, ret := 0 }
        | (pal, some a) => (h.newArena pal d a).popBlock d
      else h.popBlock d

/-- The `for` loop of `free` that takes each block of arena `a` off the free list. -/
def unlinkArena (fl : List Nat) (a : Nat) (d : Desc) : List Nat :=
  (List.range d.blocksPerArena).foldl (fun fl i => fl.erase (arenaToBlock a d i)) fl

/-- `free`; `none` where an `ASSERT` fails. -/
def free (h : Heap) (p : Nat) : Option Heap :=
  if p = 0 then some h
  else
    (h.blockToArena p).bind fun (a, ar) =>
      match ar.desc with
      | some d =>
        let fl := p :: h.freeLists d
        if (descAt d).blocksPerArena ≤ ar.freeCnt + 1 then
          if ar.freeCnt + 1 = (descAt d).blocksPerArena then
            (pallocFree h.pal a 1).map fun pal =>
              { h with
                pal := pal
                arenas := Function.update h.arenas a none
                freeLists := Function.update h.freeLists d (unlinkArena fl a (descAt d))
                live := h.live.erase p }
          else none
        else
          some { h with
            arenas := Function.update h.arenas a (some { ar with freeCnt := ar.freeCnt + 1 })
            freeLists := Function.update h.freeLists d fl
            live := h.live.erase p }
      | none =>
        (pallocFree h.pal a ar.freeCnt).map fun pal =>
          { h with pal := pal, arenas := Function.update h.arenas a none, live := h.live.erase p }

/-- `calloc`: the product in `size_t`, checked against both factors. -/
def calloc (h : Heap) (a b : UInt32) : Option Heap :=
  if a * b < a ∨ a * b < b then some { h with ret := 0 } else h.malloc (a * b)

/-- `realloc`. -/
def realloc (h : Heap) (old : Nat) (size : UInt32) : Option Heap :=
  if size = 0 then (h.free old).map fun h => { h with ret := 0 }
  else
    (h.malloc size).bind fun h1 =>
      if old ≠ 0 ∧ h1.ret ≠ 0 then (h1.free old).map fun h2 => { h2 with ret := h1.ret }
      else some h1

end Heap

/-- A call of malloc.c. -/
inductive MCall where
  | malloc (size : UInt32)
  | calloc (a b : UInt32)
  | realloc (old : Nat) (size : UInt32)
  | free (p : Nat)

namespace Heap

/-- What callers promise: they free and resize only blocks they hold, or null. -/
def Allowed (h : Heap) : MCall → Prop
  | .free p | .realloc p _ => p = 0 ∨ p ∈ h.live
  | _ => True

instance (h : Heap) : (c : MCall) → Decidable (h.Allowed c)
  | .free p | .realloc p _ => inferInstanceAs (Decidable (p = 0 ∨ p ∈ h.live))
  | .malloc .. | .calloc .. => isTrue trivial

def step (h : Heap) (c : MCall) : Option Heap :=
  if h.Allowed c then
    match c with
    | .malloc size => h.malloc size
    | .calloc a b => h.calloc a b
    | .realloc old size => h.realloc old size
    | .free p => h.free p
  else none

end Heap

section Blocks

variable {a i j : Nat} {d : Nat}

theorem descAt_fits : ∀ d, d < descs.length → 0 < (descAt d).blockSize ∧
    0 < (descAt d).blocksPerArena ∧
    arenaSize + (descAt d).blocksPerArena * (descAt d).blockSize ≤ pgSize := by
  rw [descs_eq]
  decide

theorem block_fits (hd : d < descs.length) (hi : i < (descAt d).blocksPerArena) :
    arenaSize + i * (descAt d).blockSize + (descAt d).blockSize ≤ pgSize := by
  obtain ⟨-, -, hfit⟩ := descAt_fits d hd
  have := Nat.mul_le_mul_right (descAt d).blockSize (Nat.succ_le_of_lt hi)
  rw [Nat.succ_mul] at this
  omega

theorem arenaToBlock_end (hd : d < descs.length) (hi : i < (descAt d).blocksPerArena) :
    arenaToBlock a (descAt d) i + (descAt d).blockSize ≤ a + pgSize := by
  have := block_fits hd hi
  unfold arenaToBlock
  omega

section Fits

variable (hd : d < descs.length) (ha : a % pgSize = 0)
include hd ha

theorem arenaToBlock_mod (hi : i < (descAt d).blocksPerArena) :
    arenaToBlock a (descAt d) i % pgSize = arenaSize + i * (descAt d).blockSize := by
  have hlt : arenaSize + i * (descAt d).blockSize < pgSize := by
    have := block_fits hd hi
    have := (descAt_fits d hd).1
    omega
  unfold arenaToBlock
  rw [Nat.add_assoc, Nat.add_mod, ha, Nat.zero_add, Nat.mod_mod, Nat.mod_eq_of_lt hlt]

theorem arenaToBlock_page (hi : i < (descAt d).blocksPerArena) :
    arenaToBlock a (descAt d) i / pgSize * pgSize = a := by
  have hm := arenaToBlock_mod hd ha hi
  have := Nat.div_add_mod (arenaToBlock a (descAt d) i) pgSize
  unfold arenaToBlock at *
  unfold pgSize at *
  omega

end Fits

theorem arenaToBlock_inj (hd : d < descs.length) (h : arenaToBlock a (descAt d) i = arenaToBlock a (descAt d) j) :
    i = j := by
  unfold arenaToBlock at h
  exact Nat.eq_of_mul_eq_mul_right (descAt_fits d hd).1 (by omega)

/-- The blocks an arena at `a` is carved into: its descriptor's slots, or the one big block. -/
def Arena.blocks (ar : Arena) (a : Nat) : List Nat :=
  match ar.desc with
  | some d => (List.range (descAt d).blocksPerArena).map (arenaToBlock a (descAt d))
  | none => [a + arenaSize]

/-- The arena of a block is on the block's page, so the arena holding `b`, if any, is the one at
`pg_round_down (b)`; this is its descriptor. -/
def blockDesc (arenas : Nat → Option Arena) (b : Nat) : Option (Option Nat) :=
  (arenas (b / pgSize * pgSize)).bind fun ar =>
    if b ∈ ar.blocks (b / pgSize * pgSize) then some ar.desc else none

section Arena

variable {ar : Arena} {a b : Nat} {arenas : Nat → Option Arena}

/-- A descriptor index the arena may carry. -/
def Arena.Valid (ar : Arena) : Prop := ∀ d, ar.desc = some d → d < descs.length

theorem Arena.blocks_page (ha : a % pgSize = 0) (hv : ar.Valid) (hb : b ∈ ar.blocks a) :
    b / pgSize * pgSize = a := by
  unfold Arena.blocks at hb
  split at hb
  · rename_i d hd
    obtain ⟨i, hi, rfl⟩ := List.mem_map.mp hb
    exact arenaToBlock_page (hv d hd) ha (List.mem_range.mp hi)
  · rw [List.mem_singleton.mp hb]
    unfold arenaSize pgSize at *
    omega

theorem Arena.blocks_nodup (hv : ar.Valid) : (ar.blocks a).Nodup := by
  unfold Arena.blocks
  split
  · rename_i d hd
    exact List.nodup_range.map_on fun _ _ _ _ e => arenaToBlock_inj (hv d hd) e
  · exact List.nodup_singleton _

theorem Arena.length_blocks {d : Nat} (hd : ar.desc = some d) :
    (ar.blocks a).length = (descAt d).blocksPerArena := by
  simp [Arena.blocks, hd]

@[simp] theorem Arena.blocks_freeCnt (k : Nat) : ({ ar with freeCnt := k } : Arena).blocks a = ar.blocks a :=
  rfl

theorem blockDesc_of_mem (hf : arenas a = some ar) (hp : b / pgSize * pgSize = a)
    (hb : b ∈ ar.blocks a) : blockDesc arenas b = some ar.desc := by
  subst hp
  simp [blockDesc, hf, hb]

theorem mem_of_blockDesc {d : Option Nat} (h : blockDesc arenas b = some d) :
    ∃ ar, arenas (b / pgSize * pgSize) = some ar ∧ b ∈ ar.blocks (b / pgSize * pgSize) ∧
      ar.desc = d := by
  simp only [blockDesc, Option.bind_eq_some_iff] at h
  obtain ⟨ar, hf, hd⟩ := h
  split at hd
  · exact ⟨ar, hf, ‹_›, Option.some.inj hd⟩
  · cases hd

theorem blockDesc_update_of_ne {x : Option Arena} (hb : b / pgSize * pgSize ≠ a) :
    blockDesc (Function.update arenas a x) b = blockDesc arenas b := by
  simp only [blockDesc, Function.update_of_ne hb]

theorem blockDesc_update_self {x : Option Arena} (hb : b / pgSize * pgSize = a) :
    blockDesc (Function.update arenas a x) b =
      x.bind fun ar => if b ∈ ar.blocks a then some ar.desc else none := by
  simp only [blockDesc, hb, Function.update_self]

theorem blockDesc_freeCnt (hf : arenas a = some ar) (k : Nat) :
    blockDesc (Function.update arenas a (some { ar with freeCnt := k })) = blockDesc arenas := by
  funext b
  by_cases hb : b / pgSize * pgSize = a
  · subst hb
    simp only [blockDesc, Function.update_self, hf, Option.bind_some]
    rfl
  · exact blockDesc_update_of_ne hb

end Arena

end Blocks

namespace Heap

section Layout

/-- The runs malloc holds from palloc are its arenas: each run is the arena on its first page,
of as many pages, and each arena is page aligned, such a run, and of a descriptor of `descs`. -/
structure Layout (pal : World) (arenas : Nat → Option Arena) : Prop where
  inv : pal.Inv
  held : ∀ r ∈ pal.live, r.user = false ∧
    ∃ ar, arenas (r.start * pgSize) = some ar ∧ ar.pages = r.cnt
  placed : ∀ a ar, arenas a = some ar →
    a % pgSize = 0 ∧ (⟨false, a / pgSize, ar.pages⟩ : Range) ∈ pal.live ∧ ar.Valid

variable {pal pal' : World} {arenas : Nat → Option Arena} {a n : Nat} {ar ar' : Arena}

theorem Layout.congr_pal (hl : Layout pal arenas) (hp : pal'.Inv) (hlive : pal'.live = pal.live) :
    Layout pal' arenas := by
  refine ⟨hp, ?_, ?_⟩ <;> rw [hlive]
  · exact hl.held
  · exact hl.placed

theorem Layout.update_same (hl : Layout pal arenas) (hf : arenas a = some ar)
    (hd : ar'.desc = ar.desc) (hp : ar'.pages = ar.pages) :
    Layout pal (Function.update arenas a (some ar')) := by
  refine ⟨hl.inv, fun r hr => ?_, fun a' ar'' h => ?_⟩
  · obtain ⟨hu, ar₀, h₀, hc⟩ := hl.held r hr
    refine ⟨hu, ?_⟩
    by_cases e : r.start * pgSize = a
    · subst e
      rw [hf, Option.some.injEq] at h₀
      subst h₀
      exact ⟨ar', Function.update_self .., hp.trans hc⟩
    · exact ⟨ar₀, by rw [Function.update_of_ne e]; exact h₀, hc⟩
  · by_cases e : a' = a
    · subst e
      rw [Function.update_self, Option.some.injEq] at h
      subst h
      obtain ⟨h1, h2, h3⟩ := hl.placed a' ar hf
      exact ⟨h1, hp ▸ h2, fun d hd' => h3 d (hd ▸ hd')⟩
    · rw [Function.update_of_ne e] at h
      exact hl.placed a' ar'' h

theorem Layout.fresh (hl : Layout pal arenas) (ha : a % pgSize = 0) (hn : 0 < n)
    (hdis : ∀ r ∈ pal.live, r.Disjoint ⟨false, a / pgSize, n⟩) :
    arenas a = none ∧ ∀ r ∈ pal.live, r.start * pgSize ≠ a := by
  have hne : ∀ r ∈ pal.live, r.start * pgSize ≠ a := by
    intro r hr e
    have hc := (hl.inv.inside r hr).1
    have hd := hdis r hr
    dsimp only [Range.Disjoint] at hd
    unfold pgSize at e hd
    omega
  refine ⟨?_, hne⟩
  cases h : arenas a with
  | none => rfl
  | some ar =>
    obtain ⟨-, hR, -⟩ := hl.placed a ar h
    exact (hne _ hR (Nat.div_mul_cancel (Nat.dvd_of_mod_eq_zero ha))).elim

theorem Layout.add (hl : Layout pal arenas) (hp : pal'.Inv)
    (hlive : pal'.live = pal.live ++ [⟨false, a / pgSize, ar.pages⟩]) (ha : a % pgSize = 0)
    (hne : ∀ r ∈ pal.live, r.start * pgSize ≠ a) (hv : ar.Valid) :
    Layout pal' (Function.update arenas a (some ar)) := by
  refine ⟨hp, fun r hr => ?_, fun a' ar' h => ?_⟩
  · rw [hlive, List.mem_append, List.mem_singleton] at hr
    rcases hr with hr | rfl
    · obtain ⟨hu, ar₀, h₀, hc⟩ := hl.held r hr
      exact ⟨hu, ar₀, by rw [Function.update_of_ne (hne r hr)]; exact h₀, hc⟩
    · refine ⟨rfl, ar, ?_, rfl⟩
      rw [Nat.div_mul_cancel (Nat.dvd_of_mod_eq_zero ha), Function.update_self]
  · rw [hlive]
    by_cases e : a' = a
    · subst e
      rw [Function.update_self, Option.some.injEq] at h
      subst h
      exact ⟨ha, List.mem_append_right _ (List.mem_singleton_self _), hv⟩
    · rw [Function.update_of_ne e] at h
      obtain ⟨h1, h2, h3⟩ := hl.placed a' ar' h
      exact ⟨h1, List.mem_append_left _ h2, h3⟩

theorem Layout.free_run (hl : Layout pal arenas) (hf : arenas a = some ar) :
    ∃ pal', pallocFree pal a ar.pages = some pal' ∧ pal'.Inv ∧
      pal'.live = pal.live.erase ⟨false, a / pgSize, ar.pages⟩ := by
  have hR := (hl.placed a ar hf).2.1
  simp only [Threads.pallocFree, World.step, if_pos hR, hl.inv.freeMultiple hR, Option.map_some,
    Option.some.injEq, exists_eq_left', and_true]
  exact hl.inv.release hR

theorem Layout.remove (hl : Layout pal arenas) (hf : arenas a = some ar) (hp : pal'.Inv)
    (hlive : pal'.live = pal.live.erase ⟨false, a / pgSize, ar.pages⟩) :
    Layout pal' (Function.update arenas a none) := by
  have hnd := hl.inv.nodup
  obtain ⟨ha, -, -⟩ := hl.placed a ar hf
  refine ⟨hp, fun r hr => ?_, fun a' ar' h => ?_⟩
  · rw [hlive] at hr
    obtain ⟨hu, ar₀, h₀, hc⟩ := hl.held r (List.mem_of_mem_erase hr)
    have hne : r.start * pgSize ≠ a := by
      rintro rfl
      rw [hf, Option.some.injEq] at h₀
      subst h₀
      obtain ⟨u, st, c⟩ := r
      simp only at hu hc
      subst hu hc
      rw [Nat.mul_div_cancel _ (by decide : 0 < pgSize)] at hr
      exact hnd.not_mem_erase hr
    exact ⟨hu, ar₀, by rw [Function.update_of_ne hne]; exact h₀, hc⟩
  · by_cases e : a' = a
    · subst e
      simp at h
    · rw [Function.update_of_ne e] at h
      obtain ⟨h1, h2, h3⟩ := hl.placed a' ar' h
      refine ⟨h1, ?_, h3⟩
      rw [hlive, List.mem_erase_of_ne]
      · exact h2
      · intro heq
        have hs : a' / pgSize = a / pgSize := congrArg Range.start heq
        apply e
        rw [← Nat.div_mul_cancel (Nat.dvd_of_mod_eq_zero h1),
          ← Nat.div_mul_cancel (Nat.dvd_of_mod_eq_zero ha), hs]

end Layout

section Invariant

/-- What malloc.c keeps true between calls, over the layout: each descriptor's free list holds,
once each, exactly the blocks of its arenas not handed out; each block handed out, once, is a
block of an arena; and `free_cnt` counts the arena's blocks on its descriptor's free list. -/
structure Core (h : Heap) : Prop extends Layout h.pal h.arenas where
  free : ∀ d b, b ∈ h.freeLists d ↔ blockDesc h.arenas b = some (some d) ∧ b ∉ h.live
  freeNodup : ∀ d, (h.freeLists d).Nodup
  live : ∀ b ∈ h.live, blockDesc h.arenas b ≠ none
  liveNodup : h.live.Nodup
  count : ∀ a ar d, h.arenas a = some ar → ar.desc = some d →
    ar.freeCnt = (h.freeLists d).countP (· / pgSize * pgSize = a)

/-- The arena on page `a`, if there is one, has a block handed out. -/
def InUse (h : Heap) (a : Nat) : Prop := ∀ ar, h.arenas a = some ar → ∃ b ∈ ar.blocks a, b ∈ h.live

/-- The heap invariant: and no arena is kept once all its blocks are free. -/
structure Inv (h : Heap) : Prop extends Core h where
  inUse : ∀ a, h.InUse a

variable {h : Heap} {a b p d : Nat} {ar : Arena}

theorem Core.page (hc : h.Core) (hf : h.arenas a = some ar) (hb : b ∈ ar.blocks a) :
    b / pgSize * pgSize = a := by
  obtain ⟨ha, -, hv⟩ := hc.placed a ar hf
  exact Arena.blocks_page ha hv hb

theorem Core.blockDesc_eq (hc : h.Core) (hf : h.arenas a = some ar) (hb : b ∈ ar.blocks a) :
    blockDesc h.arenas b = some ar.desc :=
  blockDesc_of_mem hf (hc.page hf hb) hb

theorem Core.blocks_nodup (hc : h.Core) (hf : h.arenas a = some ar) : (ar.blocks a).Nodup :=
  Arena.blocks_nodup (hc.placed a ar hf).2.2

theorem Core.blockToArena (hc : h.Core) (hf : h.arenas a = some ar) (hb : b ∈ ar.blocks a) :
    h.blockToArena b = some (a, ar) := by
  have hp := hc.page hf hb
  obtain ⟨ha, -, hv⟩ := hc.placed a ar hf
  cases hd : ar.desc with
  | some d =>
    simp only [Arena.blocks, hd, List.mem_map, List.mem_range] at hb
    obtain ⟨i, hi, rfl⟩ := hb
    simp only [Heap.blockToArena, hp, hf, hd, arenaToBlock_mod (hv d hd) ha hi]
    rw [if_pos]
    push_cast
    rw [Int.add_comm, Int.add_sub_cancel]
    exact Int.mul_emod_left _ _
  | none =>
    simp only [Arena.blocks, hd, List.mem_singleton] at hb
    subst hb
    simp only [Heap.blockToArena, hp, hf, hd]
    rw [if_pos]
    unfold arenaSize pgSize at *
    omega

theorem Core.freeCnt_eq (hc : h.Core) (hf : h.arenas a = some ar) (hd : ar.desc = some d) :
    ar.freeCnt = (ar.blocks a).countP (· ∉ h.live) := by
  have hperm : List.Perm ((h.freeLists d).filter (· / pgSize * pgSize = a))
      ((ar.blocks a).filter (· ∉ h.live)) := by
    refine (List.perm_ext_iff_of_nodup ((hc.freeNodup d).filter _)
      ((hc.blocks_nodup hf).filter _)).mpr fun x => ?_
    simp only [List.mem_filter, decide_eq_true_eq, hc.free]
    constructor
    · rintro ⟨⟨hx, hl⟩, hp⟩
      obtain ⟨ar', hf', hb, -⟩ := mem_of_blockDesc hx
      rw [hp, hf, Option.some.injEq] at hf'
      subst hf'
      rw [hp] at hb
      exact ⟨hb, hl⟩
    · rintro ⟨hb, hl⟩
      exact ⟨⟨by rw [hc.blockDesc_eq hf hb, hd], hl⟩, hc.page hf hb⟩
  rw [hc.count a ar d hf hd, List.countP_eq_length_filter, List.countP_eq_length_filter,
    hperm.length_eq]

theorem Core.inUse_of_lt (hc : h.Core) (hf : h.arenas a = some ar) (hd : ar.desc = some d)
    (hlt : ar.freeCnt < (descAt d).blocksPerArena) : ∃ b ∈ ar.blocks a, b ∈ h.live := by
  rw [hc.freeCnt_eq hf hd, ← Arena.length_blocks hd (a := a)] at hlt
  by_contra hno
  have hall : ∀ b ∈ ar.blocks a, decide (b ∉ h.live) = true :=
    fun b hb => decide_eq_true fun hl => hno ⟨b, hb, hl⟩
  have := List.countP_eq_length.mpr hall
  omega

theorem Core.freeCnt_lt (hc : h.Core) (hf : h.arenas a = some ar) (hd : ar.desc = some d)
    (hp : p ∈ h.live) (hb : p ∈ ar.blocks a) : ar.freeCnt < (descAt d).blocksPerArena := by
  rw [hc.freeCnt_eq hf hd, ← Arena.length_blocks hd (a := a), List.countP_eq_length_filter]
  exact List.length_filter_lt_length_iff_exists.mpr ⟨p, hb, by simpa using hp⟩

/-- Freeing `p` brings `free_cnt` to `blocks_per_arena` exactly when `p` is the arena's last
block handed out. -/
theorem Core.last_iff (hc : h.Core) (hf : h.arenas a = some ar) (hd : ar.desc = some d)
    (hp : p ∈ h.live) (hb : p ∈ ar.blocks a) :
    ar.freeCnt + 1 = (descAt d).blocksPerArena ↔ ∀ q ∈ ar.blocks a, q ∈ h.live → q = p := by
  have hperm := List.perm_cons_erase hb
  rw [hc.freeCnt_eq hf hd, ← Arena.length_blocks hd (a := a), hperm.countP_eq, hperm.length_eq,
    List.countP_cons, if_neg (by simpa using hp), List.length_cons, Nat.add_zero,
    Nat.add_right_cancel_iff, List.countP_eq_length]
  simp only [(hc.blocks_nodup hf).mem_erase_iff, decide_eq_true_eq, and_imp]
  constructor
  · intro hall q hq hql
    by_contra hne
    exact hall q hne hq hql
  · intro honly q hne hq hql
    exact hne (honly q hq hql)

theorem blockDesc_of_none {arenas : Nat → Option Arena} {x : Nat} (hn : arenas a = none)
    (hx : x / pgSize * pgSize = a) : blockDesc arenas x = none := by
  simp [blockDesc, hx, hn]

theorem Core.not_live {x : Nat} (hc : h.Core) (hn : h.arenas a = none)
    (hx : x / pgSize * pgSize = a) : x ∉ h.live :=
  fun hl => hc.live x hl (blockDesc_of_none hn hx)

theorem Core.not_free {x : Nat} (hc : h.Core) (hn : h.arenas a = none)
    (hx : x / pgSize * pgSize = a) : x ∉ h.freeLists d := fun hf => by
  have := ((hc.free d x).mp hf).1
  rw [blockDesc_of_none hn hx] at this
  cases this

theorem mem_blocks_of_blockDesc {arenas : Nat → Option Arena} {x : Nat} {e : Option Nat}
    (hf : arenas a = some ar) (hx : blockDesc arenas x = some e) (ex : x / pgSize * pgSize = a) :
    x ∈ ar.blocks a ∧ ar.desc = e := by
  obtain ⟨ar', hf', hb, hde⟩ := mem_of_blockDesc hx
  rw [ex, hf, Option.some.injEq] at hf'
  subst hf'
  rw [ex] at hb
  exact ⟨hb, hde⟩

theorem Core.inUse_erase {a' : Nat} (hc : h.Core) (hpa : p / pgSize * pgSize = a) (ea : a' ≠ a)
    (hu : h.InUse a') (ar' : Arena) (hf : h.arenas a' = some ar') :
    ∃ c ∈ ar'.blocks a', c ∈ h.live.erase p := by
  obtain ⟨c, hcb, hcl⟩ := hu ar' hf
  refine ⟨c, hcb, (List.mem_erase_of_ne fun e => ea ?_).mpr hcl⟩
  rw [← hc.page hf hcb, e, hpa]

end Invariant

section Steps

variable {h : Heap} {pal : World} {a b d n p : Nat} {ar : Arena} {rest : List Nat}

/-- `list_pop_front` of a descriptor's free list: the block is handed out and its arena has one
free block less. -/
theorem Core.popBlock (hc : h.Core) (hf : h.freeLists d = b :: rest) :
    ∃ h', h.popBlock d = some h' ∧ h'.Core ∧ h'.live = h.live ++ [b] ∧ h'.ret = b ∧
      h'.pal = h.pal ∧ ((∀ a, a ≠ b / pgSize * pgSize → h.InUse a) → ∀ a, h'.InUse a) := by
  obtain ⟨hbd, hbl⟩ := (hc.free d b).mp (hf ▸ List.mem_cons_self)
  obtain ⟨ar, har, hbar, hdesc⟩ := mem_of_blockDesc hbd
  have hnd : (b :: rest).Nodup := hf ▸ hc.freeNodup d
  have hbd' := blockDesc_freeCnt har (ar.freeCnt - 1)
  refine ⟨{ h with
      freeLists := Function.update h.freeLists d rest
      arenas := Function.update h.arenas _ (some { ar with freeCnt := ar.freeCnt - 1 })
      live := h.live ++ [b]
      ret := b },
    by simp only [Heap.popBlock, hf, hc.blockToArena har hbar, Option.map_some],
    ⟨hc.update_same har rfl (by simp [Arena.pages, hdesc]), fun d' x => ?_, fun d' => ?_,
      fun x hx => ?_, ?_, fun a' ar' d' harr hd' => ?_⟩, rfl, rfl, rfl, fun hu a' ar' harr => ?_⟩
  · dsimp only
    rw [hbd', List.mem_append, List.mem_singleton, not_or]
    by_cases e : d' = d
    · subst e
      rw [Function.update_self, ← and_assoc, ← hc.free, hf, List.mem_cons]
      constructor
      · intro hx
        exact ⟨.inr hx, fun e => (List.nodup_cons.mp hnd).1 (e ▸ hx)⟩
      · rintro ⟨rfl | hx, hne⟩
        · exact absurd rfl hne
        · exact hx
    · rw [Function.update_of_ne e, hc.free]
      constructor
      · rintro ⟨hx, hl⟩
        refine ⟨hx, hl, ?_⟩
        rintro rfl
        rw [hbd, Option.some.injEq, Option.some.injEq] at hx
        exact e hx.symm
      · rintro ⟨hx, hl, -⟩
        exact ⟨hx, hl⟩
  · dsimp only
    by_cases e : d' = d
    · subst e
      rw [Function.update_self]
      exact (List.nodup_cons.mp hnd).2
    · rw [Function.update_of_ne e]
      exact hc.freeNodup d'
  · dsimp only at hx ⊢
    rw [hbd']
    rcases List.mem_append.mp hx with hx | hx
    · exact hc.live x hx
    · rw [List.mem_singleton.mp hx, hbd]
      exact Option.some_ne_none _
  · exact List.nodup_append.mpr ⟨hc.liveNodup, List.nodup_singleton b,
      fun x hx y hy e => hbl (by rw [← List.mem_singleton.mp hy, ← e]; exact hx)⟩
  · dsimp only at harr ⊢
    by_cases ea : a' = b / pgSize * pgSize
    · subst ea
      rw [Function.update_self, Option.some.injEq] at harr
      subst harr
      have hdd : d' = d := Option.some.inj (hd'.symm.trans hdesc)
      subst hdd
      have := hc.count _ ar d' har hdesc
      rw [hf, List.countP_cons, if_pos (decide_eq_true rfl)] at this
      rw [Function.update_self]
      dsimp only
      omega
    · rw [Function.update_of_ne ea] at harr
      have := hc.count a' ar' d' harr hd'
      by_cases ed : d' = d
      · subst ed
        rw [hf, List.countP_cons, if_neg (by simpa using Ne.symm ea), Nat.add_zero] at this
        rw [Function.update_self]
        exact this
      · rw [Function.update_of_ne ed]
        exact this
  · dsimp only at harr ⊢
    by_cases ea : a' = b / pgSize * pgSize
    · subst ea
      rw [Function.update_self, Option.some.injEq] at harr
      subst harr
      exact ⟨b, hbar, List.mem_append_right _ (List.mem_singleton_self b)⟩
    · rw [Function.update_of_ne ea] at harr
      obtain ⟨c, hc1, hc2⟩ := hu a' ea ar' harr
      exact ⟨c, hc1, List.mem_append_left _ hc2⟩

theorem Core.newArena (hc : h.Core) (hd : d < descs.length) (hp : pal.Inv)
    (hlive : pal.live = h.pal.live ++ [⟨false, a / pgSize, 1⟩]) (ha : a % pgSize = 0)
    (hdis : ∀ r ∈ h.pal.live, r.Disjoint ⟨false, a / pgSize, 1⟩) :
    (h.newArena pal d a).Core ∧ ∀ a', a' ≠ a → h.InUse a' → (h.newArena pal d a).InUse a' := by
  obtain ⟨hnone, hne⟩ := hc.fresh ha Nat.one_pos hdis
  let arN : Arena := ⟨some d, (descAt d).blocksPerArena⟩
  have hv : arN.Valid := fun d' e => Option.some.inj e ▸ hd
  have hB : ∀ x ∈ arN.blocks a, x / pgSize * pgSize = a := fun x hx => Arena.blocks_page ha hv hx
  have hBeq : (List.range (descAt d).blocksPerArena).map (arenaToBlock a (descAt d)) =
      arN.blocks a := rfl
  refine ⟨⟨hc.add hp hlive ha hne hv, fun d' x => ?_, fun d' => ?_, fun x hx => ?_, hc.liveNodup,
    fun a' ar' d' harr hd' => ?_⟩, fun a' ea hu ar' harr => ?_⟩
  · dsimp only [Heap.newArena]
    rw [hBeq]
    by_cases ex : x / pgSize * pgSize = a
    · have hxl : x ∉ h.live := hc.not_live hnone ex
      rw [blockDesc_update_self ex, Option.bind_some]
      by_cases e : d' = d
      · subst e
        rw [Function.update_self, List.mem_append, iff_false_intro (hc.not_free hnone ex), false_or]
        by_cases hxB : x ∈ arN.blocks a
        · rw [if_pos hxB]
          exact ⟨fun _ => ⟨rfl, hxl⟩, fun _ => hxB⟩
        · rw [if_neg hxB]
          exact ⟨fun hx => absurd hx hxB, fun hx => nomatch hx.1⟩
      · rw [Function.update_of_ne e, iff_false_intro (hc.not_free hnone ex), false_iff]
        rintro ⟨hx, -⟩
        split at hx
        · exact e (Option.some.inj (Option.some.inj hx)).symm
        · cases hx
    · rw [blockDesc_update_of_ne ex, ← hc.free]
      by_cases e : d' = d
      · subst e
        rw [Function.update_self, List.mem_append, or_iff_left fun hx => ex (hB x hx)]
      · rw [Function.update_of_ne e]
  · dsimp only [Heap.newArena]
    rw [hBeq]
    by_cases e : d' = d
    · subst e
      rw [Function.update_self]
      exact List.nodup_append.mpr ⟨hc.freeNodup d', Arena.blocks_nodup hv,
        fun x hx y hy exy => hc.not_free hnone (exy ▸ hB y hy) hx⟩
    · rw [Function.update_of_ne e]
      exact hc.freeNodup d'
  · dsimp only [Heap.newArena] at hx ⊢
    rw [blockDesc_update_of_ne fun ex => hc.not_live hnone ex hx]
    exact hc.live x hx
  · dsimp only [Heap.newArena] at harr ⊢
    rw [hBeq]
    by_cases ea : a' = a
    · subst ea
      rw [Function.update_self, Option.some.injEq] at harr
      subst harr
      cases hd'
      have hfree : ∀ x ∈ h.freeLists d, ¬decide (x / pgSize * pgSize = a') = true :=
        fun x hx e => hc.not_free hnone (of_decide_eq_true e) hx
      have hall : ∀ x ∈ arN.blocks a', decide (x / pgSize * pgSize = a') = true :=
        fun x hx => decide_eq_true (hB x hx)
      rw [Function.update_self, List.countP_append, List.countP_eq_zero.mpr hfree,
        List.countP_eq_length.mpr hall, Arena.length_blocks rfl, Nat.zero_add]
    · rw [Function.update_of_ne ea] at harr
      have := hc.count a' ar' d' harr hd'
      by_cases ed : d' = d
      · subst ed
        have hnew : ∀ x ∈ arN.blocks a, ¬decide (x / pgSize * pgSize = a') = true :=
          fun x hx e => ea ((of_decide_eq_true e).symm.trans (hB x hx))
        rw [Function.update_self, List.countP_append, ← this, List.countP_eq_zero.mpr hnew,
          Nat.add_zero]
      · rw [Function.update_of_ne ed]
        exact this
  · dsimp only [Heap.newArena] at harr ⊢
    rw [Function.update_of_ne ea] at harr
    exact hu ar' harr

theorem Inv.bigArena (hi : h.Inv) (hp : pal.Inv)
    (hlive : pal.live = h.pal.live ++ [⟨false, a / pgSize, n⟩]) (ha : a % pgSize = 0) (hn : 0 < n)
    (hdis : ∀ r ∈ h.pal.live, r.Disjoint ⟨false, a / pgSize, n⟩) :
    ({ h with
      pal := pal
      arenas := Function.update h.arenas a (some ⟨none, n⟩)
      live := h.live ++ [a + arenaSize]
      ret := a + arenaSize } : Heap).Inv := by
  obtain ⟨hnone, hne⟩ := hi.fresh ha hn hdis
  let arB : Arena := ⟨none, n⟩
  have hv : arB.Valid := fun _ e => nomatch e
  have hpg : (a + arenaSize) / pgSize * pgSize = a :=
    Arena.blocks_page ha hv (List.mem_singleton_self _)
  refine ⟨⟨hi.add hp hlive ha hne hv, fun d' x => ?_, hi.freeNodup, fun x hx => ?_, ?_,
    fun a' ar' d' harr hd' => ?_⟩, fun a' ar' harr => ?_⟩
  · dsimp only
    by_cases ex : x / pgSize * pgSize = a
    · rw [blockDesc_update_self ex, Option.bind_some, iff_false_intro (hi.not_free hnone ex),
        false_iff]
      rintro ⟨hx, -⟩
      split at hx <;> cases hx
    · rw [blockDesc_update_of_ne ex, hi.free, List.mem_append, List.mem_singleton, not_or]
      exact ⟨fun ⟨h1, h2⟩ => ⟨h1, h2, fun e => ex (e ▸ hpg)⟩, fun ⟨h1, h2, _⟩ => ⟨h1, h2⟩⟩
  · dsimp only at hx ⊢
    rcases List.mem_append.mp hx with hx | hx
    · rw [blockDesc_update_of_ne fun ex => hi.not_live hnone ex hx]
      exact hi.live x hx
    · rw [List.mem_singleton.mp hx, blockDesc_update_self hpg]
      simp [Arena.blocks]
  · exact List.nodup_append.mpr ⟨hi.liveNodup, List.nodup_singleton _,
      fun x hx y hy e => hi.not_live hnone (by rw [e, List.mem_singleton.mp hy]; exact hpg) hx⟩
  · dsimp only at harr
    by_cases ea : a' = a
    · subst ea
      rw [Function.update_self, Option.some.injEq] at harr
      subst harr
      cases hd'
    · rw [Function.update_of_ne ea] at harr
      exact hi.count a' ar' d' harr hd'
  · dsimp only at harr ⊢
    by_cases ea : a' = a
    · subst ea
      rw [Function.update_self, Option.some.injEq] at harr
      subst harr
      exact ⟨a' + arenaSize, List.mem_singleton_self _,
        List.mem_append_right _ (List.mem_singleton_self _)⟩
    · rw [Function.update_of_ne ea] at harr
      obtain ⟨c, hc1, hc2⟩ := hi.inUse a' ar' harr
      exact ⟨c, hc1, List.mem_append_left _ hc2⟩

theorem foldl_erase_eq_filter (g : Nat → Nat) :
    ∀ (is fl : List Nat), fl.Nodup →
      is.foldl (fun fl i => fl.erase (g i)) fl = fl.filter (· ∉ is.map g)
  | [], fl, _ => by simp
  | i :: is, fl, hnd => by
    rw [List.foldl_cons, foldl_erase_eq_filter g is _ (hnd.erase _), hnd.erase_eq_filter,
      List.filter_filter]
    refine List.filter_congr fun x _ => ?_
    by_cases hx : x = g i <;> simp [hx]

theorem unlinkArena_eq {fl : List Nat} (hnd : fl.Nodup) (hd : ar.desc = some d) :
    unlinkArena fl a (descAt d) = fl.filter (· ∉ ar.blocks a) := by
  simp only [unlinkArena, Arena.blocks, hd, foldl_erase_eq_filter _ _ _ hnd]

theorem Core.not_free_of_live (hc : h.Core) (hp : p ∈ h.live) (d' : Nat) : p ∉ h.freeLists d' :=
  fun hx => ((hc.free d' p).mp hx).2 hp

section Free

variable (hi : h.Inv) (hf : h.arenas a = some ar) (hp : p ∈ h.live) (hb : p ∈ ar.blocks a)
include hi hf hp hb

/-- `free` of a block whose arena keeps other blocks handed out: it goes on the front of the
free list. -/
theorem Inv.freeKeep (hd : ar.desc = some d) (hlt : ar.freeCnt + 1 < (descAt d).blocksPerArena) :
    ({ h with
      arenas := Function.update h.arenas a (some { ar with freeCnt := ar.freeCnt + 1 })
      freeLists := Function.update h.freeLists d (p :: h.freeLists d)
      live := h.live.erase p } : Heap).Inv := by
  have hpa := hi.page hf hb
  have hbd' := blockDesc_freeCnt hf (ar.freeCnt + 1)
  have hpd : blockDesc h.arenas p = some (some d) := by rw [hi.blockDesc_eq hf hb, hd]
  have hnot : p ∉ h.live.erase p := hi.liveNodup.not_mem_erase
  have hc' : ({ h with
      arenas := Function.update h.arenas a (some { ar with freeCnt := ar.freeCnt + 1 })
      freeLists := Function.update h.freeLists d (p :: h.freeLists d)
      live := h.live.erase p } : Heap).Core := by
    refine ⟨hi.update_same hf rfl (by simp [Arena.pages, hd]), fun d' x => ?_, fun d' => ?_,
      fun x hx => ?_, hi.liveNodup.erase p, fun a' ar' d' harr hd' => ?_⟩
    · dsimp only
      rw [hbd']
      by_cases exp : x = p
      · subst exp
        rw [hpd]
        by_cases e : d' = d
        · subst e
          simp [hnot]
        · rw [Function.update_of_ne e]
          simp [hi.not_free_of_live hp d', Ne.symm e]
      · rw [List.mem_erase_of_ne exp, ← hi.free]
        by_cases e : d' = d
        · subst e
          rw [Function.update_self, List.mem_cons, or_iff_right exp]
        · rw [Function.update_of_ne e]
    · dsimp only
      by_cases e : d' = d
      · subst e
        rw [Function.update_self]
        exact List.nodup_cons.mpr ⟨hi.not_free_of_live hp d', hi.freeNodup d'⟩
      · rw [Function.update_of_ne e]
        exact hi.freeNodup d'
    · dsimp only at hx ⊢
      rw [hbd']
      exact hi.live x (List.mem_of_mem_erase hx)
    · dsimp only at harr ⊢
      by_cases ea : a' = a
      · subst ea
        rw [Function.update_self, Option.some.injEq] at harr
        subst harr
        have hdd : d' = d := Option.some.inj (hd'.symm.trans hd)
        subst hdd
        rw [Function.update_self, List.countP_cons, if_pos (decide_eq_true hpa),
          hi.count _ ar d' hf hd]
      · rw [Function.update_of_ne ea] at harr
        have := hi.count a' ar' d' harr hd'
        by_cases ed : d' = d
        · subst ed
          rw [Function.update_self, List.countP_cons,
            if_neg fun e => ea ((of_decide_eq_true e).symm.trans hpa), Nat.add_zero]
          exact this
        · rw [Function.update_of_ne ed]
          exact this
  refine ⟨hc', fun a' ar' harr => ?_⟩
  dsimp only at harr ⊢
  by_cases ea : a' = a
  · subst ea
    rw [Function.update_self, Option.some.injEq] at harr
    subst harr
    exact hc'.inUse_of_lt (Function.update_self ..) hd hlt
  · rw [Function.update_of_ne ea] at harr
    exact hi.inUse_erase hpa ea (hi.inUse a') ar' harr

/-- `free` of an arena's last block handed out: its blocks leave the free list and its page
goes back to palloc. -/
theorem Inv.freeRelease (hd : ar.desc = some d) (hlast : ar.freeCnt + 1 = (descAt d).blocksPerArena)
    (hpal : pal.Inv) (hlive : pal.live = h.pal.live.erase ⟨false, a / pgSize, ar.pages⟩) :
    ({ h with
      pal := pal
      arenas := Function.update h.arenas a none
      freeLists := Function.update h.freeLists d (unlinkArena (p :: h.freeLists d) a (descAt d))
      live := h.live.erase p } : Heap).Inv := by
  have hpa := hi.page hf hb
  have honly := (hi.last_iff hf hd hp hb).mp hlast
  have hnd : (p :: h.freeLists d).Nodup :=
    List.nodup_cons.mpr ⟨hi.not_free_of_live hp d, hi.freeNodup d⟩
  have hxp : ∀ x, x / pgSize * pgSize ≠ a → x ≠ p := fun x ex e => ex (e ▸ hpa)
  refine ⟨⟨hi.remove hf hpal hlive, fun d' x => ?_, fun d' => ?_, fun x hx => ?_,
    hi.liveNodup.erase p, fun a' ar' d' harr hd' => ?_⟩, fun a' ar' harr => ?_⟩
  · dsimp only
    by_cases ex : x / pgSize * pgSize = a
    · rw [blockDesc_update_self ex, Option.bind_none]
      simp only [reduceCtorEq, false_and, iff_false]
      by_cases e : d' = d
      · subst e
        rw [Function.update_self, unlinkArena_eq hnd hd, List.mem_filter, List.mem_cons]
        rintro ⟨rfl | hx, hxB⟩
        · exact of_decide_eq_true hxB hb
        · exact of_decide_eq_true hxB
            (mem_blocks_of_blockDesc hf ((hi.free d' x).mp hx).1 ex).1
      · rw [Function.update_of_ne e]
        intro hx
        have := (mem_blocks_of_blockDesc hf ((hi.free d' x).mp hx).1 ex).2
        exact e (Option.some.inj (this.symm.trans hd))
    · rw [blockDesc_update_of_ne ex, List.mem_erase_of_ne (hxp x ex), ← hi.free]
      by_cases e : d' = d
      · subst e
        rw [Function.update_self, unlinkArena_eq hnd hd, List.mem_filter, List.mem_cons,
          or_iff_right (hxp x ex),
          and_iff_left (decide_eq_true (show x ∉ ar.blocks a from fun hB => ex (hi.page hf hB)))]
      · rw [Function.update_of_ne e]
  · dsimp only
    by_cases e : d' = d
    · subst e
      rw [Function.update_self, unlinkArena_eq hnd hd]
      exact hnd.filter _
    · rw [Function.update_of_ne e]
      exact hi.freeNodup d'
  · dsimp only at hx ⊢
    obtain ⟨hne, hx⟩ := hi.liveNodup.mem_erase_iff.mp hx
    have ex : x / pgSize * pgSize ≠ a := by
      intro ex
      obtain ⟨e, he⟩ := Option.ne_none_iff_exists'.mp (hi.live x hx)
      exact hne (honly x (mem_blocks_of_blockDesc hf he ex).1 hx)
    rw [blockDesc_update_of_ne ex]
    exact hi.live x hx
  · dsimp only at harr ⊢
    have ea : a' ≠ a := by
      rintro rfl
      rw [Function.update_self] at harr
      cases harr
    rw [Function.update_of_ne ea] at harr
    have := hi.count a' ar' d' harr hd'
    by_cases ed : d' = d
    · subst ed
      have hq : ∀ x ∈ p :: h.freeLists d',
          (decide (x / pgSize * pgSize = a') && decide (x ∉ ar.blocks a)) =
            decide (x / pgSize * pgSize = a') := by
        intro x _
        by_cases ex : x / pgSize * pgSize = a'
        · simp only [ex, decide_true, Bool.true_and, decide_eq_true_eq]
          exact fun hB => ea (ex.symm.trans (hi.page hf hB))
        · simp [ex]
      rw [Function.update_self, unlinkArena_eq hnd hd, List.countP_filter,
        List.countP_congr fun x hx => by rw [hq x hx], List.countP_cons,
        if_neg fun e => ea ((of_decide_eq_true e).symm.trans hpa), Nat.add_zero]
      exact this
    · rw [Function.update_of_ne ed]
      exact this
  · dsimp only at harr ⊢
    by_cases ea : a' = a
    · subst ea
      rw [Function.update_self] at harr
      cases harr
    · rw [Function.update_of_ne ea] at harr
      exact hi.inUse_erase hpa ea (hi.inUse a') ar' harr

omit hp in
theorem Inv.freeBig (hd : ar.desc = none) (hpal : pal.Inv)
    (hlive : pal.live = h.pal.live.erase ⟨false, a / pgSize, ar.pages⟩) :
    ({ h with
      pal := pal
      arenas := Function.update h.arenas a none
      live := h.live.erase p } : Heap).Inv := by
  have hpa := hi.page hf hb
  have hxp : ∀ x, x / pgSize * pgSize ≠ a → x ≠ p := fun x ex e => ex (e ▸ hpa)
  have hB : ∀ x ∈ ar.blocks a, x = p := by
    simp only [Arena.blocks, hd, List.mem_singleton] at hb ⊢
    exact fun x hx => hx.trans hb.symm
  refine ⟨⟨hi.remove hf hpal hlive, fun d' x => ?_, hi.freeNodup, fun x hx => ?_,
    hi.liveNodup.erase p, fun a' ar' d' harr hd' => ?_⟩, fun a' ar' harr => ?_⟩
  · dsimp only
    by_cases ex : x / pgSize * pgSize = a
    · rw [blockDesc_update_self ex, Option.bind_none]
      simp only [reduceCtorEq, false_and, iff_false]
      intro hx
      have := (mem_blocks_of_blockDesc hf ((hi.free d' x).mp hx).1 ex).2
      rw [hd] at this
      cases this
    · rw [blockDesc_update_of_ne ex, List.mem_erase_of_ne (hxp x ex), ← hi.free]
  · dsimp only at hx ⊢
    obtain ⟨hne, hx⟩ := hi.liveNodup.mem_erase_iff.mp hx
    have ex : x / pgSize * pgSize ≠ a := by
      intro ex
      obtain ⟨e, he⟩ := Option.ne_none_iff_exists'.mp (hi.live x hx)
      exact hne (hB x (mem_blocks_of_blockDesc hf he ex).1)
    rw [blockDesc_update_of_ne ex]
    exact hi.live x hx
  · dsimp only at harr ⊢
    have ea : a' ≠ a := by
      rintro rfl
      rw [Function.update_self] at harr
      cases harr
    rw [Function.update_of_ne ea] at harr
    exact hi.count a' ar' d' harr hd'
  · dsimp only at harr ⊢
    by_cases ea : a' = a
    · subst ea
      rw [Function.update_self] at harr
      cases harr
    · rw [Function.update_of_ne ea] at harr
      exact hi.inUse_erase hpa ea (hi.inUse a') ar' harr

end Free

theorem Inv.congr_pal (hi : h.Inv) (hp : pal.Inv) (hl : pal.live = h.pal.live) (r : Nat) :
    ({ h with pal := pal, ret := r } : Heap).Inv :=
  ⟨⟨hi.toLayout.congr_pal hp hl, hi.free, hi.freeNodup, hi.live, hi.liveNodup, hi.count⟩, hi.inUse⟩

theorem Inv.setRet (hi : h.Inv) (r : Nat) : ({ h with ret := r } : Heap).Inv :=
  hi.congr_pal hi.inv rfl r

/-- What `palloc_get_multiple (0, n)` can do: return null and change no run, or return a new run
of `n` pages. -/
theorem pallocGet_cases (pal : World) (n : Nat) :
    ((pallocGet pal n).2 = none ∧ pal.step (.get ⟨false, false, false⟩ n) = some (pallocGet pal n).1 ∧
      (pallocGet pal n).1.live = pal.live) ∨
    ∃ page, (pallocGet pal n).2 = some (page * pgSize) ∧
      (pal.alloc.getMultiple ⟨false, false, false⟩ n).2 = .pages page ∧
      pal.step (.get ⟨false, false, false⟩ n) = some (pallocGet pal n).1 ∧
      (pallocGet pal n).1.live = pal.live ++ [⟨false, page, n⟩] := by
  rcases Palloc.getMultiple_cases pal.alloc ⟨false, false, false⟩ n with
    ⟨-, hg⟩ | ⟨-, idx, -, hg⟩ | ⟨-, -, hg⟩
  · exact .inl (by simp [pallocGet, World.step, hg])
  · exact .inr ⟨(pal.alloc.pool false).base + idx, by simp [pallocGet, World.step, hg]⟩
  · exact .inl (by simp [pallocGet, World.step, hg])

theorem pallocGet_none {pal' : World} (hp : pal.Inv) (h : pallocGet pal n = (pal', none)) :
    pal'.Inv ∧ pal'.live = pal.live := by
  rcases pallocGet_cases pal n with ⟨-, hs, hl⟩ | ⟨page, h2, -, -, -⟩
  · simp only [h] at hs hl
    exact ⟨hp.get hs, hl⟩
  · simp only [h] at h2
    cases h2

theorem pallocGet_some {pal' : World} (hp : pal.Inv) (h : pallocGet pal n = (pal', some a)) :
    pal'.Inv ∧ pal'.live = pal.live ++ [⟨false, a / pgSize, n⟩] ∧ a % pgSize = 0 ∧ 0 < n ∧
      ∀ r ∈ pal.live, r.Disjoint ⟨false, a / pgSize, n⟩ := by
  rcases pallocGet_cases pal n with ⟨h2, -, -⟩ | ⟨page, h2, hg, hs, hl⟩
  · simp only [h] at h2
    cases h2
  · simp only [h, Option.some.injEq] at h2 hs hl
    subst h2
    obtain ⟨hn, -, -, hdis⟩ := hp.getMultiple_pages hg
    rw [Nat.mul_div_cancel _ (by decide : 0 < pgSize)]
    exact ⟨hp.get hs, hl, Nat.mul_mod_left _ _, hn, hdis⟩

theorem Inv.malloc_some (hi : h.Inv) (size : UInt32) :
    ∃ h', h.malloc size = some h' ∧ h'.Inv ∧ h.live ⊆ h'.live := by
  unfold Heap.malloc
  split_ifs with hs
  · exact ⟨_, rfl, hi.setRet 0, List.Subset.refl _⟩
  split
  · -- no descriptor is big enough: a run of pages
    split
    · rename_i pal' hg
      obtain ⟨hp, hl⟩ := pallocGet_none hi.inv hg
      exact ⟨_, rfl, hi.congr_pal hp hl 0, List.Subset.refl _⟩
    · rename_i pal' a hg
      obtain ⟨hp, hl, ha, hn, hdis⟩ := pallocGet_some hi.inv hg
      exact ⟨_, rfl, hi.bigArena hp hl ha hn hdis, List.subset_append_left _ _⟩
  · rename_i d hfind
    have hd : d < descs.length := (List.findIdx?_eq_some_iff_findIdx_eq.mp hfind).1
    split_ifs with hemp
    · -- the free list is empty: a new arena first
      split
      · rename_i pal' hg
        obtain ⟨hp, hl⟩ := pallocGet_none hi.inv hg
        exact ⟨_, rfl, hi.congr_pal hp hl 0, List.Subset.refl _⟩
      · rename_i pal' a hg
        obtain ⟨hp, hl, ha, -, hdis⟩ := pallocGet_some hi.inv hg
        obtain ⟨hcN, huN⟩ := hi.newArena hd hp hl ha hdis
        have hfl : (h.newArena pal' d a).freeLists d =
            (List.range (descAt d).blocksPerArena).map (arenaToBlock a (descAt d)) := by
          simp [Heap.newArena, hemp]
        cases hl' : (h.newArena pal' d a).freeLists d with
        | nil =>
          rw [hfl, List.map_eq_nil_iff, List.range_eq_nil] at hl'
          have := (descAt_fits d hd).2.1
          omega
        | cons b rest =>
          have hpb : b / pgSize * pgSize = a := by
            have hb : b ∈ (List.range (descAt d).blocksPerArena).map (arenaToBlock a (descAt d)) :=
              hfl ▸ hl' ▸ List.mem_cons_self
            obtain ⟨i, hi', rfl⟩ := List.mem_map.mp hb
            exact arenaToBlock_page hd ha (List.mem_range.mp hi')
          obtain ⟨h', he, hc', hlive', -, -, hu'⟩ := hcN.popBlock hl'
          refine ⟨h', he, ⟨hc', hu' fun a' ea => huN a' (hpb ▸ ea) (hi.inUse a')⟩, ?_⟩
          rw [hlive']
          exact List.subset_append_left _ _
    · obtain ⟨b, rest, hl'⟩ := List.exists_cons_of_ne_nil hemp
      obtain ⟨h', he, hc', hlive', -, -, hu'⟩ := hi.popBlock hl'
      refine ⟨h', he, ⟨hc', hu' fun a' _ => hi.inUse a'⟩, ?_⟩
      rw [hlive']
      exact List.subset_append_left _ _

theorem Core.pos (hc : h.Core) (hf : h.arenas a = some ar) (hb : b ∈ ar.blocks a) : 0 < b := by
  obtain ⟨-, hR, -⟩ := hc.placed a ar hf
  have hbase := (hc.inv.inside _ hR).2.1
  have hnull := hc.inv.nonnull
  have hpage := hc.page hf hb
  have := Nat.div_mul_le_self b pgSize
  unfold pgSize at *
  dsimp only at hbase
  omega

/-- `free` of a block handed out fails no `ASSERT` and keeps the invariant; the block is no
longer handed out, and it is back on its descriptor's free list unless its arena went back to
palloc. -/
theorem Inv.free_live (hi : h.Inv) (hp : p ∈ h.live) :
    ∃ h', h.free p = some h' ∧ h'.Inv ∧ h'.live = h.live.erase p ∧
      ∀ d, blockDesc h.arenas p = some (some d) →
        p ∈ h'.freeLists d ∨ h'.arenas (p / pgSize * pgSize) = none := by
  obtain ⟨e, he⟩ := Option.ne_none_iff_exists'.mp (hi.live p hp)
  obtain ⟨ar, hf, hb, -⟩ := mem_of_blockDesc he
  obtain ⟨pal', hpf, hpi, hpl⟩ := hi.free_run hf
  have hbd := hi.blockDesc_eq hf hb
  unfold Heap.free
  rw [if_neg (Nat.pos_iff_ne_zero.mp (hi.pos hf hb)), hi.blockToArena hf hb, Option.bind_some]
  dsimp only
  split
  · rename_i d hd
    have hlt := hi.freeCnt_lt hf hd hp hb
    have h1 : ar.pages = 1 := by simp [Arena.pages, hd]
    rw [h1] at hpf
    by_cases hlast : ar.freeCnt + 1 = (descAt d).blocksPerArena
    · rw [if_pos (Nat.le_of_eq hlast.symm), if_pos hlast, hpf, Option.map_some]
      exact ⟨_, rfl, hi.freeRelease hf hp hb hd hlast hpi hpl, rfl,
        fun _ _ => .inr (by simp)⟩
    · rw [if_neg (by omega)]
      refine ⟨_, rfl, hi.freeKeep hf hp hb hd (by omega), rfl, fun d' hd' => .inl ?_⟩
      rw [hbd, hd, Option.some.injEq, Option.some.injEq] at hd'
      subst hd'
      simp
  · rename_i hd
    have hn : ar.pages = ar.freeCnt := by simp [Arena.pages, hd]
    rw [hn] at hpf
    rw [hpf, Option.map_some]
    refine ⟨_, rfl, hi.freeBig hf hb hd hpi hpl, rfl, fun d' hd' => ?_⟩
    rw [hbd, hd] at hd'
    cases hd'

/-- `free` of a null pointer or of a block handed out keeps the invariant and fails no
`ASSERT`. -/
theorem Inv.free_some (hi : h.Inv) (hp : p = 0 ∨ p ∈ h.live) : ∃ h', h.free p = some h' ∧ h'.Inv := by
  rcases hp with rfl | hp
  · exact ⟨h, by simp [Heap.free], hi⟩
  obtain ⟨h', he, hi', -⟩ := hi.free_live hp
  exact ⟨h', he, hi'⟩

theorem Inv.calloc_some (hi : h.Inv) (a b : UInt32) : ∃ h', h.calloc a b = some h' ∧ h'.Inv := by
  unfold Heap.calloc
  split_ifs
  · exact ⟨_, rfl, hi.setRet 0⟩
  · obtain ⟨h', he, hi', -⟩ := hi.malloc_some (a * b)
    exact ⟨h', he, hi'⟩

theorem Inv.realloc_some (hi : h.Inv) (hp : p = 0 ∨ p ∈ h.live) (size : UInt32) :
    ∃ h', h.realloc p size = some h' ∧ h'.Inv := by
  unfold Heap.realloc
  split_ifs
  · obtain ⟨h', he, hi'⟩ := hi.free_some hp
    exact ⟨{ h' with ret := 0 }, by rw [he, Option.map_some], hi'.setRet 0⟩
  · obtain ⟨h1, he, hi1, hsub⟩ := hi.malloc_some size
    rw [he, Option.bind_some]
    split_ifs
    · -- the old block is still handed out after the new one is
      obtain ⟨h2, he2, hi2⟩ := hi1.free_some (hp.imp_right fun hp => hsub hp)
      exact ⟨{ h2 with ret := h1.ret }, by rw [he2, Option.map_some], hi2.setRet h1.ret⟩
    · exact ⟨h1, rfl, hi1⟩

/-- Every call a caller may make succeeds and keeps the invariant. -/
theorem Inv.step_some (hi : h.Inv) {c : MCall} (hc : h.Allowed c) :
    ∃ h', h.step c = some h' ∧ h'.Inv := by
  unfold Heap.step
  rw [if_pos hc]
  cases c with
  | malloc size =>
    obtain ⟨h', he, hi', -⟩ := hi.malloc_some size
    exact ⟨h', he, hi'⟩
  | calloc a b => exact hi.calloc_some a b
  | realloc old size => exact hi.realloc_some hc size
  | free p => exact hi.free_some hc

theorem Inv.step {c : MCall} {h' : Heap} (hi : h.Inv) (hs : h.step c = some h') : h'.Inv := by
  by_cases hc : h.Allowed c
  · obtain ⟨h'', he, hi''⟩ := hi.step_some hc
    rw [he, Option.some.injEq] at hs
    exact hs ▸ hi''
  · simp [Heap.step, hc] at hs

theorem init_inv {ram limit : Nat} (h0 : init ram limit = some h) : h.Inv := by
  obtain ⟨pal, hp, rfl⟩ := Option.map_eq_some_iff.mp h0
  obtain ⟨hi, hl⟩ := World.init_inv hp
  refine ⟨⟨⟨hi, by simp [hl], (fun _ _ h => nomatch h)⟩, fun _ _ => ?_, fun _ => List.nodup_nil,
    (fun _ h => nomatch h), List.nodup_nil, (fun _ _ _ h => nomatch h)⟩, (fun _ _ h => nomatch h)⟩
  simp [blockDesc]

end Steps

section Sound

variable {h : Heap} {a b c d : Nat} {ar : Arena}

theorem Core.blockSize_desc (hc : h.Core) (hf : h.arenas a = some ar) (hb : b ∈ ar.blocks a)
    (hd : ar.desc = some d) : h.blockSize b = (descAt d).blockSize := by
  simp only [Heap.blockSize, hc.blockToArena hf hb, hd]

theorem Core.blockSize_big (hc : h.Core) (hf : h.arenas a = some ar) (hb : b ∈ ar.blocks a)
    (hd : ar.desc = none) : h.blockSize b = pgSize * ar.freeCnt - b % pgSize := by
  simp only [Heap.blockSize, hc.blockToArena hf hb, hd]

theorem Core.inside (hc : h.Core) (hf : h.arenas a = some ar) (hb : b ∈ ar.blocks a) :
    a ≤ b ∧ b + h.blockSize b ≤ a + pgSize * ar.pages := by
  obtain ⟨ha, hR, hv⟩ := hc.placed a ar hf
  cases hd : ar.desc with
  | some d =>
    rw [hc.blockSize_desc hf hb hd, show ar.pages = 1 by simp [Arena.pages, hd], Nat.mul_one]
    simp only [Arena.blocks, hd, List.mem_map, List.mem_range] at hb
    obtain ⟨i, hi, rfl⟩ := hb
    have := arenaToBlock_end (a := a) (hv d hd) hi
    unfold arenaToBlock at *
    omega
  | none =>
    rw [hc.blockSize_big hf hb hd]
    simp only [Arena.blocks, hd, List.mem_singleton] at hb
    subst hb
    have hpos := (hc.inv.inside _ hR).1
    dsimp only at hpos
    rw [show ar.pages = ar.freeCnt by simp [Arena.pages, hd]] at hpos ⊢
    unfold arenaSize pgSize at *
    omega

theorem Core.same_arena (hc : h.Core) (hf : h.arenas a = some ar) (hb : b ∈ ar.blocks a)
    (hb' : c ∈ ar.blocks a) (hne : b ≠ c) :
    b + h.blockSize b ≤ c ∨ c + h.blockSize c ≤ b := by
  cases hd : ar.desc with
  | some d =>
    rw [hc.blockSize_desc hf hb hd, hc.blockSize_desc hf hb' hd]
    simp only [Arena.blocks, hd, List.mem_map, List.mem_range] at hb hb'
    obtain ⟨i, -, rfl⟩ := hb
    obtain ⟨j, -, rfl⟩ := hb'
    have hij : i ≠ j := fun e => hne (e ▸ rfl)
    unfold arenaToBlock
    rcases Nat.lt_or_gt_of_ne hij with hlt | hlt
    · have := Nat.mul_le_mul_right (descAt d).blockSize (Nat.succ_le_of_lt hlt)
      rw [Nat.succ_mul] at this
      omega
    · have := Nat.mul_le_mul_right (descAt d).blockSize (Nat.succ_le_of_lt hlt)
      rw [Nat.succ_mul] at this
      omega
  | none =>
    simp only [Arena.blocks, hd, List.mem_singleton] at hb hb'
    exact absurd (hb.trans hb'.symm) hne

theorem Core.exists_arena (hc : h.Core) (hb : b ∈ h.live) :
    ∃ ar, h.arenas (b / pgSize * pgSize) = some ar ∧ b ∈ ar.blocks (b / pgSize * pgSize) := by
  obtain ⟨e, he⟩ := Option.ne_none_iff_exists'.mp (hc.live b hb)
  obtain ⟨ar, hf, hb, -⟩ := mem_of_blockDesc he
  exact ⟨ar, hf, hb⟩

/-- Blocks handed out do not overlap: within an arena by its slots, across arenas because palloc
holds their runs apart. -/
theorem Core.live_disjoint (hc : h.Core) :
    h.live.Pairwise fun b c => b + h.blockSize b ≤ c ∨ c + h.blockSize c ≤ b := by
  refine hc.liveNodup.pairwise_of_forall_ne fun b hb c hc' hne => ?_
  obtain ⟨ar, hf, hbB⟩ := hc.exists_arena hb
  obtain ⟨ar', hf', hcB⟩ := hc.exists_arena hc'
  by_cases e : b / pgSize * pgSize = c / pgSize * pgSize
  · rw [← e, hf, Option.some.injEq] at hf'
    subst hf'
    rw [← e] at hcB
    exact hc.same_arena hf hbB hcB hne
  · have ib := hc.inside hf hbB
    have ic := hc.inside hf' hcB
    have hR := (hc.placed _ ar hf).2.1
    have hR' := (hc.placed _ ar' hf').2.1
    have hne' : (⟨false, b / pgSize * pgSize / pgSize, ar.pages⟩ : Range) ≠
        ⟨false, c / pgSize * pgSize / pgSize, ar'.pages⟩ := by
      intro heq
      have hs : b / pgSize * pgSize / pgSize = c / pgSize * pgSize / pgSize :=
        congrArg Range.start heq
      rw [Nat.mul_div_cancel _ (by decide : 0 < pgSize),
        Nat.mul_div_cancel _ (by decide : 0 < pgSize)] at hs
      exact e (by rw [hs])
    have hd := hc.inv.disjoint.forall hR hR' hne'
    dsimp only [Range.Disjoint] at hd
    unfold pgSize at *
    omega

theorem Inv.held_iff (hi : h.Inv) (a : Nat) :
    (∃ r ∈ h.pal.live, r.start * pgSize = a) ↔ ∃ b ∈ h.live, b / pgSize * pgSize = a := by
  constructor
  · rintro ⟨r, hr, rfl⟩
    obtain ⟨-, ar, hf, -⟩ := hi.held r hr
    obtain ⟨b, hb, hl⟩ := hi.inUse _ ar hf
    exact ⟨b, hl, hi.page hf hb⟩
  · rintro ⟨b, hl, rfl⟩
    obtain ⟨ar, hf, -⟩ := hi.exists_arena hl
    obtain ⟨ha, hR, -⟩ := hi.placed _ ar hf
    exact ⟨_, hR, Nat.div_mul_cancel (Nat.dvd_of_mod_eq_zero ha)⟩

theorem Core.free_iff (hc : h.Core) (d b : Nat) :
    b ∈ h.freeLists d ↔
      (∃ a ar, h.arenas a = some ar ∧ ar.desc = some d ∧ b ∈ ar.blocks a) ∧ b ∉ h.live := by
  rw [hc.free]
  refine and_congr_left fun _ => ⟨fun hb => ?_, fun ⟨a, ar, hf, hd, hb⟩ => ?_⟩
  · obtain ⟨ar, hf, hb, hd⟩ := mem_of_blockDesc hb
    exact ⟨_, ar, hf, hd, hb⟩
  · rw [hc.blockDesc_eq hf hb, hd]

theorem Core.count_blocks (hc : h.Core) (hf : h.arenas a = some ar) (hd : ar.desc = some d) :
    ar.freeCnt = (h.freeLists d).countP (· ∈ ar.blocks a) := by
  rw [hc.count a ar d hf hd]
  refine List.countP_congr fun x hx => ?_
  simp only [decide_eq_true_eq]
  exact ⟨fun ex => (mem_blocks_of_blockDesc hf ((hc.free d x).mp hx).1 ex).1, hc.page hf⟩

/-- What malloc.c promises of its heap between calls. -/
structure Sound (h : Heap) : Prop where
  /-- Blocks handed out do not overlap, each of `block_size` bytes. -/
  disjoint : h.live.Pairwise fun b c => b + h.blockSize b ≤ c ∨ c + h.blockSize c ≤ b
  /-- Each lies inside one arena page, or one big block's run of pages. -/
  inside : ∀ b ∈ h.live, ∃ a ar, h.arenas a = some ar ∧ b ∈ ar.blocks a ∧
    a ≤ b ∧ b + h.blockSize b ≤ a + pgSize * ar.pages
  /-- `d->free_list` holds exactly the free blocks of `d`'s arenas, -/
  free : ∀ d b, b ∈ h.freeLists d ↔
    (∃ a ar, h.arenas a = some ar ∧ ar.desc = some d ∧ b ∈ ar.blocks a) ∧ b ∉ h.live
  /-- each once. -/
  freeNodup : ∀ d, (h.freeLists d).Nodup
  /-- `a->free_cnt` counts `a`'s blocks on the free list. -/
  count : ∀ a ar d, h.arenas a = some ar → ar.desc = some d →
    ar.freeCnt = (h.freeLists d).countP (· ∈ ar.blocks a)
  /-- malloc holds the page of `a` from palloc exactly while a block on it is handed out. -/
  held : ∀ a, (∃ r ∈ h.pal.live, r.start * pgSize = a) ↔ ∃ b ∈ h.live, b / pgSize * pgSize = a
  /-- No `ASSERT` fails on a call the caller may make. -/
  total : ∀ c, h.Allowed c → (h.step c).isSome
  /-- `free` of a block handed out puts it back on its descriptor's free list or returns its
  arena's pages to palloc, and returns them exactly when no other block on them is handed
  out. -/
  release : ∀ p ∈ h.live, ∃ h', h.free p = some h' ∧
    (∀ d, blockDesc h.arenas p = some (some d) →
      p ∈ h'.freeLists d ∨ h'.arenas (p / pgSize * pgSize) = none) ∧
    ((∃ r ∈ h'.pal.live, r.start * pgSize = p / pgSize * pgSize) ↔
      ∃ b ∈ h.live, b ≠ p ∧ b / pgSize * pgSize = p / pgSize * pgSize)

theorem Inv.sound (hi : h.Inv) : h.Sound := by
  refine ⟨hi.live_disjoint, fun b hb => ?_, hi.free_iff, hi.freeNodup,
    fun a ar d hf hd => hi.count_blocks hf hd, hi.held_iff, fun c hc => ?_, fun p hp => ?_⟩
  · obtain ⟨ar, hf, hbB⟩ := hi.exists_arena hb
    exact ⟨_, ar, hf, hbB, hi.inside hf hbB⟩
  · obtain ⟨h', he, -⟩ := hi.step_some hc
    rw [he]
    rfl
  · -- the pages stay held exactly while a block on them is handed out, before and after
    obtain ⟨h', he, hi', hlive, hback⟩ := hi.free_live hp
    refine ⟨h', he, hback, ?_⟩
    rw [hi'.held_iff, hlive]
    refine exists_congr fun b => ?_
    rw [hi.liveNodup.mem_erase_iff, and_assoc, and_left_comm]

end Sound

/-- `calloc (0x10001, 0x10001)` gets a block of 135156 bytes though the product is past 2^32:
in `size_t` it wraps to 131073, which is above both factors. `malloc (0xfffffff8)` gets one
page of 4084 usable bytes: `size + sizeof *a` wraps to 4. -/
theorem calloc_malloc_sizes_wrap :
    ∃ h0, init 1024 4294967295 = some h0 ∧
      (∃ h1, runs step h0 [.calloc 0x10001 0x10001] = some h1 ∧ h1.ret ≠ 0 ∧
        h1.blockSize h1.ret < 0x10001 * 0x10001) ∧
      ∃ h2, runs step h0 [.malloc 0xfffffff8] = some h2 ∧ h2.ret ≠ 0 ∧
        h2.blockSize h2.ret < 0xfffffff8 := by
  refine ⟨_, rfl, ?_, ?_⟩
  · exact exists_of_runs (by decide +kernel)
  · exact exists_of_runs (by decide +kernel)

end Heap

end Pintos.Threads
