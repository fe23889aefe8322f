import Karg.PageAlloc

namespace Karg.Kalloc

open LinkStore ListNode ByteMemory KernelMemory PageAlloc

structure Symbols where
  blockList : Nat
  freeList : Nat

/-- The memory, with a record of the pages that `kmalloc` has got, in order. -/
structure Heap where
  mem : Memory
  pages : List Nat

def headerSize : Nat := 32

def allocated (m : Memory) (block : Nat) : Bool := load m (block + 16) 1 ≠ 0

def setAllocated (m : Memory) (block : Nat) (val : Bool) : Memory := store m (block + 16) 1 val.toNat

def size (m : Memory) (block : Nat) : Nat := load m (block + 24) 8

def setSize (m : Memory) (block val : Nat) : Memory := store m (block + 24) 8 val

def fits (m : Memory) (sz block : Nat) : Bool := !allocated m block && size m block ≥ sz

def kmallocPage (sym : Symbols) (h : Heap) : Heap × Nat :=
  let (m, block) := pageAlloc sym.freeList h.mem
  if block = nullptr then ({ h with mem := m }, nullptr)
  else
    let m := setAllocated m block false
    let m := setSize m block pageSize
    (⟨listPushBack m sym.blockList block, h.pages ++ [block]⟩, block)

def kmallocSplit (m : Memory) (block sz : Nat) : Memory :=
  let m := setAllocated m block true
  if usizeSub (size m block) sz > headerSize then
    let remBlock := usizeAdd block sz
    let m := setAllocated m remBlock false
    let m := setSize m remBlock (usizeSub (size m block) sz)
    let m := listInsert m (next m block) remBlock
    setSize m block sz
  else m

def kmallocTake (h : Heap) (block sz : Nat) : Heap × Nat :=
  ({ h with mem := kmallocSplit h.mem block sz }, usizeAdd block headerSize)

def kmalloc (sym : Symbols) (fuel : Nat) (h : Heap) (sz : Nat) : Option (Heap × Nat) :=
  let sz := usizeAdd sz headerSize
  if sz > pageSize then some (h, nullptr)
  else do
    let block ← listForEach fuel h.mem sym.blockList (fits h.mem sz) (listFront h.mem sym.blockList)
    if block = sym.blockList then
      let (h, block) := kmallocPage sym h
      if block = nullptr then some (h, nullptr) else some (kmallocTake h block sz)
    else some (kmallocTake h block sz)

def kcalloc (sym : Symbols) (fuel : Nat) (h : Heap) (sz n : Nat) : Option (Heap × Nat) := do
  let sz := usizeMul sz n
  let (h, res) ← kmalloc sym fuel h sz
  if res = nullptr then some (h, res)
  else some ({ h with mem := memSet h.mem res 0 sz }, res)

def kfreePrev (sym : Symbols) (m : Memory) (curr : Nat) : Memory × Nat :=
  if !listIsFront m sym.blockList curr then
    let prev := prev m curr
    if !allocated m prev && usizeAdd prev (size m prev) = curr then
      let m := setSize m prev (usizeAdd (size m prev) (size m curr))
      (listRemove m curr, prev)
    else (m, curr)
  else (m, curr)

def kfreeNext (sym : Symbols) (m : Memory) (curr : Nat) : Memory :=
  if !listIsBack m sym.blockList curr then
    let next := next m curr
    if !allocated m next && usizeAdd curr (size m curr) = next then
      let m := setSize m curr (usizeAdd (size m curr) (size m next))
      listRemove m next
    else m
  else m

def kfree (sym : Symbols) (h : Heap) (ptr : Nat) : Heap :=
  if ptr = nullptr then h
  else
    let curr := usizeSub ptr headerSize
    let m := setAllocated h.mem curr false
    let (m, curr) := kfreePrev sym m curr
    { h with mem := kfreeNext sym m curr }

end Karg.Kalloc
