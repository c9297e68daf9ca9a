import EthDriver.Bytes

namespace EthDriver.MemHeap

open Bytes

def memSizeAligned : ℕ := 6144
def memAlignment : ℕ := 4
def sizeofStructMem : ℕ := 8
def minSizeAligned : ℕ := 12

def lwipMemAlignSize (size : ℕ) : ℕ := (size + (memAlignment - 1)) / memAlignment * memAlignment

/-- Why a call does not return. A failed assertion is printed and followed by
`while(1)`; a walk over the headers that has made more steps than the heap has
bytes goes in a circle. -/
inductive Stuck
  | assertion (message : String)
  | spinning
  deriving DecidableEq, Repr

def lwipAssert (message : String) (holds : Bool) : Except Stuck Unit :=
  if holds then pure () else throw (.assertion message)

/-- The header in front of every block. Addresses are distances from `ram`. -/
structure Mem where
  next : ℕ
  prev : ℕ
  used : UInt8
  deriving DecidableEq, Repr

structure Heap where
  ram : Memory
  lfree : ℕ

def ptrToMem (ram : Memory) (ptr : ℕ) : Mem where
  next := ofLe (read ram ptr 2)
  prev := ofLe (read ram (ptr + 2) 2)
  used := ram (ptr + 4)

def setNext (ram : Memory) (mem next : ℕ) : Memory := write ram mem (read (le next) 0 2)

def setPrev (ram : Memory) (mem prev : ℕ) : Memory := write ram (mem + 2) (read (le prev) 0 2)

def setUsed (ram : Memory) (mem : ℕ) (used : UInt8) : Memory := write ram (mem + 4) [used]

def setNextPrev (ram : Memory) (next prev : ℕ) : Memory :=
  if next ≠ memSizeAligned then setPrev ram next prev else ram

def plugForward (h : Heap) (mem : ℕ) : Heap :=
  let nmem := (ptrToMem h.ram mem).next
  if mem ≠ nmem ∧ (ptrToMem h.ram nmem).used = 0 ∧ nmem ≠ memSizeAligned then
    let lfree := if h.lfree = nmem then mem else h.lfree
    let ram := setNext h.ram mem (ptrToMem h.ram nmem).next
    ⟨setNextPrev ram (ptrToMem ram nmem).next mem, lfree⟩
  else h

def plugBackward (h : Heap) (mem : ℕ) : Heap :=
  let pmem := (ptrToMem h.ram mem).prev
  if pmem ≠ mem ∧ (ptrToMem h.ram pmem).used = 0 then
    let lfree := if h.lfree = mem then pmem else h.lfree
    let ram := setNext h.ram pmem (ptrToMem h.ram mem).next
    ⟨setNextPrev ram (ptrToMem ram mem).next pmem, lfree⟩
  else h

def plugHoles (h : Heap) (mem : ℕ) : Except Stuck Heap := do
  lwipAssert "plug_holes: mem < ram_end" (mem < memSizeAligned)
  lwipAssert "plug_holes: mem->used == 0" ((ptrToMem h.ram mem).used = 0)
  lwipAssert "plug_holes: mem->next <= MEM_SIZE_ALIGNED"
    ((ptrToMem h.ram mem).next ≤ memSizeAligned)
  pure (plugBackward (plugForward h mem) mem)

def memInit (ram : Memory) : Heap where
  ram :=
    let ram := setUsed (setPrev (setNext ram 0 memSizeAligned) 0 0) 0 0
    let ram := setNext (setUsed ram memSizeAligned 1) memSizeAligned memSizeAligned
    setPrev ram memSizeAligned memSizeAligned
  lfree := 0

def memLinkValid (ram : Memory) (mem : ℕ) : Bool :=
  let m := ptrToMem ram mem
  let nmem := ptrToMem ram m.next
  let pmem := ptrToMem ram m.prev
  !(memSizeAligned < m.next || memSizeAligned < m.prev ||
    (m.prev ≠ mem && pmem.next ≠ mem) || (m.next ≠ memSizeAligned && nmem.prev ≠ mem))

/-- `mem_free`. What its debug text calls an illegal free is an assertion in this
build, so that the early returns behind those are not reached. -/
def memFree (h : Heap) : Option ℤ → Except Stuck Heap
  | none => pure h
  | some rmem => do
    lwipAssert "mem_free: sanity check alignment" (rmem % memAlignment = 0)
    lwipAssert "mem_free: illegal memory"
      (0 ≤ rmem - sizeofStructMem && rmem + minSizeAligned ≤ memSizeAligned)
    let mem := (rmem - sizeofStructMem).toNat
    lwipAssert "mem_free: illegal memory: double free" ((ptrToMem h.ram mem).used ≠ 0)
    lwipAssert "mem_free: illegal memory: non-linked: double free" (memLinkValid h.ram mem)
    plugHoles ⟨setUsed h.ram mem 0, if mem < h.lfree then mem else h.lfree⟩ mem

/-- The size of the block for a request, if the heap can have such a block. -/
def alignedSize (sizeIn : UInt16) : Option ℕ :=
  let size := lwipMemAlignSize sizeIn.toNat % 65536
  let size := if size < minSizeAligned then minSizeAligned else size
  if memSizeAligned < size ∨ size < sizeIn.toNat then none else some size

def createMem2 (ram : Memory) (ptr ptr2 next : ℕ) : Memory :=
  setNext (setPrev (setNext (setUsed ram ptr2 0) ptr2 next) ptr2 ptr) ptr ptr2

/-- `mem_trim` of a pointer that is 8 bytes or more behind `ram`, where it is
in the heap at all. -/
def memTrim (h : Heap) (rmem : ℤ) (newSize : UInt16) : Except Stuck (Option ℤ × Heap) :=
  match alignedSize newSize with
  | none => pure (none, h)
  | some newsize => do
    lwipAssert "mem_trim: legal memory" (0 ≤ rmem && rmem < memSizeAligned)
    let ptr := (rmem - sizeofStructMem).toNat
    let next := (ptrToMem h.ram ptr).next
    let size := ((next + 65536 - ptr) % 65536 + 65536 - sizeofStructMem) % 65536
    lwipAssert "mem_trim can only shrink memory" (newsize ≤ size)
    if newsize = size then pure (some rmem, h) else
    let ptr2 := (ptr + sizeofStructMem + newsize) % 65536
    if (ptrToMem h.ram next).used = 0 then do
      lwipAssert "invalid next ptr" (next ≠ memSizeAligned)
      let lfree := if h.lfree = next then ptr2 else h.lfree
      let ram := createMem2 h.ram ptr ptr2 (ptrToMem h.ram next).next
      pure (some rmem, ⟨setNextPrev ram (ptrToMem ram ptr2).next ptr2, lfree⟩)
    else if newsize + sizeofStructMem + minSizeAligned ≤ size then do
      lwipAssert "invalid next ptr" (next ≠ memSizeAligned)
      let lfree := if ptr2 < h.lfree then ptr2 else h.lfree
      let ram := createMem2 h.ram ptr ptr2 next
      pure (some rmem, ⟨setNextPrev ram (ptrToMem ram ptr2).next ptr2, lfree⟩)
    else pure (some rmem, h)

/-- `mem->next - (ptr + SIZEOF_STRUCT_MEM)`, which is unsigned. -/
def userDataSize (ram : Memory) (ptr : ℕ) : ℕ :=
  ((ptrToMem ram ptr).next + 2 ^ 32 - (ptr + sizeofStructMem)) % 2 ^ 32

def scan (ram : Memory) (size : ℕ) : ℕ → ℕ → Except Stuck (Option ℕ)
  | 0, _ => throw .spinning
  | fuel + 1, ptr =>
    if ptr < memSizeAligned - size then
      if (ptrToMem ram ptr).used = 0 ∧ size ≤ userDataSize ram ptr then pure (some ptr)
      else scan ram size fuel (ptrToMem ram ptr).next
    else pure none

/-- The first header from `cur` on that is free, or the end of the heap. -/
def nextFree (ram : Memory) : ℕ → ℕ → Except Stuck ℕ
  | 0, _ => throw .spinning
  | fuel + 1, cur =>
    if (ptrToMem ram cur).used ≠ 0 ∧ cur ≠ memSizeAligned then
      nextFree ram fuel (ptrToMem ram cur).next
    else pure cur

def takeBlock (ram : Memory) (ptr size : ℕ) : Except Stuck Memory :=
  if size + sizeofStructMem + minSizeAligned ≤ userDataSize ram ptr then do
    let ptr2 := (ptr + sizeofStructMem + size) % 65536
    lwipAssert "invalid next ptr" (ptr2 ≠ memSizeAligned)
    let ram := setUsed (createMem2 ram ptr ptr2 (ptrToMem ram ptr).next) ptr 1
    pure (setNextPrev ram (ptrToMem ram ptr2).next ptr2)
  else pure (setUsed ram ptr 1)

def adjustLfree (ram : Memory) (lfree mem : ℕ) : Except Stuck ℕ :=
  if mem = lfree then do
    let cur ← nextFree ram memSizeAligned lfree
    lwipAssert "mem_malloc: !lfree->used" (cur = memSizeAligned || (ptrToMem ram cur).used = 0)
    pure cur
  else pure lfree

def memMalloc (h : Heap) (sizeIn : UInt16) : Except Stuck (Option ℕ × Heap) :=
  if sizeIn = 0 then pure (none, h) else
  match alignedSize sizeIn with
  | none => pure (none, h)
  | some size => do
    match ← scan h.ram size memSizeAligned h.lfree with
    | none => pure (none, h)
    | some mem => do
      let ram ← takeBlock h.ram mem size
      let lfree ← adjustLfree ram h.lfree mem
      lwipAssert "mem_malloc: allocated memory not above ram_end."
        (mem + sizeofStructMem + size ≤ memSizeAligned)
      lwipAssert "mem_malloc: allocated memory properly aligned."
        ((mem + sizeofStructMem) % memAlignment = 0)
      lwipAssert "mem_malloc: sanity check alignment" (mem % memAlignment = 0)
      pure (some (mem + sizeofStructMem), ⟨ram, lfree⟩)

def memCalloc (h : Heap) (count size : UInt16) : Except Stuck (Option ℕ × Heap) :=
  let allocSize := count.toNat * size.toNat
  if allocSize % 65536 ≠ allocSize then pure (none, h)
  else do
    match ← memMalloc h (UInt16.ofNat allocSize) with
    | (none, h) => pure (none, h)
    | (some p, h) => pure (some p, { h with ram := write h.ram p (List.replicate allocSize 0) })

def memSanityFrom (ram : Memory) : ℕ → ℕ → UInt8 → Except Stuck Unit
  | 0, _, _ => throw .spinning
  | fuel + 1, mem, lastUsed =>
    let m := ptrToMem ram mem
    if 0 < mem ∧ mem < memSizeAligned then do
      lwipAssert "heap element aligned" (mem % memAlignment = 0)
      lwipAssert "heap element prev ptr valid" (m.prev ≤ memSizeAligned)
      lwipAssert "heap element next ptr valid" (m.next ≤ memSizeAligned)
      if lastUsed = 0 then lwipAssert "heap element unused?" (m.used = 1)
      else lwipAssert "heap element unused member" (m.used = 0 || m.used = 1)
      lwipAssert "heap element link valid" (memLinkValid ram mem)
      memSanityFrom ram fuel m.next m.used
    else do
      lwipAssert "heap end ptr sanity" (mem = memSizeAligned)
      lwipAssert "heap element used valid" (m.used = 1)
      lwipAssert "heap element prev ptr valid" (m.prev = memSizeAligned)
      lwipAssert "heap element next ptr valid" (m.next = memSizeAligned)

/-- `mem_sanity`, the heap's own check of its headers. Its alignment checks of
`next` and `prev` apply the macro to a comparison and cannot fail. -/
def memSanity (h : Heap) : Except Stuck Unit := do
  let m := ptrToMem h.ram 0
  lwipAssert "heap element used valid" (m.used = 0 || m.used = 1)
  lwipAssert "heap element prev ptr valid" (m.prev = 0)
  lwipAssert "heap element next ptr valid" (m.next ≤ memSizeAligned)
  memSanityFrom h.ram memSizeAligned m.next m.used

end EthDriver.MemHeap
