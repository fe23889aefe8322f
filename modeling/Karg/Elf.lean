import Karg.Vm

namespace Karg.Elf

open ByteMemory KernelMemory PageAlloc Vm

def ptLoad : Nat := 1

def pfX : UInt32 := 0x1

def pfW : UInt32 := 0x2

def pfR : UInt32 := 0x4

structure ProgHdr where
  type : Nat
  flags : UInt32
  offset : Nat
  vaddr : Nat
  filesz : Nat
  memsz : Nat
  deriving DecidableEq

structure ElfLoadRes where
  entry : Nat
  pageTable : Nat

/-- A program header of the image, whose bytes are numbered from `INIT_ELF` on. -/
def progHdr (img : Memory) (pos : Nat) : ProgHdr where
  type := load img pos 4
  flags := UInt32.ofNat (load img (pos + 4) 4)
  offset := load img (pos + 8) 8
  vaddr := load img (pos + 16) 8
  filesz := load img (pos + 32) 8
  memsz := load img (pos + 40) 8

def entry (img : Memory) : Nat := load img 24 8

def phoff (img : Memory) : Nat := load img 32 8

def phnum (img : Memory) : Nat := load img 56 2

def progHdrs (img : Memory) : List ProgHdr := (List.range (phnum img)).map fun i => progHdr img (phoff img + 56 * i)

def checkIdent (img : Memory) : Bool :=
  img.byte 0 = 0x7F && img.byte 1 = 0x45 && img.byte 2 = 0x4C && img.byte 3 = 0x46

def checkCompat (img : Memory) : Bool := img.byte 4 = 2 && img.byte 5 = 1 && img.byte 6 = 1

def vmFlags (hdr : ProgHdr) : UInt32 :=
  let flags := vmFlagUser
  let flags := if hdr.flags &&& pfX ≠ 0 then flags ||| vmFlagExecutable else flags
  let flags := if hdr.flags &&& pfW ≠ 0 then flags ||| vmFlagWritable else flags
  if hdr.flags &&& pfR ≠ 0 then flags ||| vmFlagReadable else flags

def fillPage (img : Memory) (hdr : ProgHdr) (m : Memory) (page offset : Nat) : Memory :=
  let m := memSet m page 0 pageSize
  if offset < hdr.filesz then
    memCopyFrom m page img (hdr.offset + offset)
      (if usizeSub hdr.filesz offset < pageSize then usizeSub hdr.filesz offset else pageSize)
  else m

def loadPages (freeList : Nat) (img : Memory) (pageTable : Nat) (hdr : ProgHdr) (fuel : Nat) (s : Space) (offset : Nat) :
    Option (Space × Int) :=
  match fuel with
  | 0 => none
  | fuel + 1 =>
      if offset < hdr.memsz then
        let (m, page) := pageAlloc freeList s.mem
        if page = nullptr then some (⟨m, s.tables⟩, -enomem)
        else
          let m := fillPage img hdr m page offset
          let (s, res) := vmMapPage freeList ⟨m, s.tables⟩ pageTable (usizeAdd hdr.vaddr offset) page (vmFlags hdr)
          if res < 0 then some (s, res)
          else loadPages freeList img pageTable hdr fuel s (usizeAdd offset pageSize)
      else some (s, 0)

def loadSegments (freeList : Nat) (img : Memory) (pageTable : Nat) (fuel : Nat) (s : Space) :
    List ProgHdr → Option (Space × Int)
  | [] => some (s, 0)
  | hdr :: hdrs =>
      if hdr.type ≠ ptLoad then loadSegments freeList img pageTable fuel s hdrs
      else do
        let (s, res) ← loadPages freeList img pageTable hdr fuel s 0
        if res < 0 then some (s, res) else loadSegments freeList img pageTable fuel s hdrs

def elfLoad (freeList : Nat) (img : Memory) (fuel : Nat) (m : Memory) (loadRes : ElfLoadRes) :
    Option (Space × ElfLoadRes × Int) :=
  let loadRes := { loadRes with entry := entry img }
  if !checkIdent img then some (⟨m, []⟩, loadRes, -eacces)
  else if !checkCompat img || load img 16 2 ≠ 2 then some (⟨m, []⟩, loadRes, -einval)
  else
    let (s, pageTable) := vmCreatePageTable freeList ⟨m, []⟩
    let loadRes := { loadRes with pageTable := pageTable }
    if pageTable = nullptr then some (s, loadRes, -enomem)
    else do
      let (s, res) ← loadSegments freeList img pageTable fuel s (progHdrs img)
      some (s, loadRes, res)

end Karg.Elf
