import Prs.Model.Stack

/-!
# Loading of a process (`pal/linux/proc.c`), up to the end of the copy loop

`prs_pal_proc_load` maps the file, checks its identification, reserves one memory area for all the segments,
and writes each segment to its place in the area. Addresses and sizes have 64 bits and wrap. `mmap` is what
the operating system returns for a new area of a size, where no result is `MAP_FAILED`.

What the bytes in memory are, and the steps after the copy loop (symbols, shared libraries, relocations), are in
`Prs.Model.ElfImage`.
-/

namespace Prs.ElfLoad

open Prs.Stack (Word alignSize memMap)

/-- `e_ident`. -/
structure Ident where
  mag0 : BitVec 8
  mag1 : BitVec 8
  mag2 : BitVec 8
  mag3 : BitVec 8
  fileClass : BitVec 8
  data : BitVec 8
  version : BitVec 8
  osabi : BitVec 8

/-- `ElfW(Phdr)`. -/
structure Phdr where
  type : BitVec 32
  flags : BitVec 32
  offset : Word
  vaddr : Word
  filesz : Word
  memsz : Word
  deriving DecidableEq

/-- The mapped file: its address, its identification and the `e_phnum` entries of its program header table. -/
structure File where
  base : Word
  ident : Ident
  phdrs : List Phdr

/-- What the function asks of the operating system. -/
structure Os where
  pageSize : Word
  mmap : Word → Option Word

/-- The ways to `cleanup` before the copy loop, with their traces. -/
inductive Failure
  | magic
  | fileClass
  | endianness
  | version
  | abi
  | noLoad
  | memMap
  deriving DecidableEq

/-- The text of the trace, before the name of the file in quotes where that follows. -/
def Failure.text : Failure → String
  | .magic => "Invalid ELF64 magic in"
  | .fileClass => "Invalid ELF64 class in"
  | .endianness => "Invalid ELF64 endianness in"
  | .version => "Invalid ELF64 version in"
  | .abi => "Invalid ELF64 ABI in"
  | .noLoad => "Couldn't find PT_LOAD section"
  | .memMap => "prs_pal_mem_map() failed"

/-- The checks of `e_ident`: the first that fails. -/
def Ident.check (i : Ident) : Option Failure :=
  if i.mag0 ≠ 0x7f ∨ i.mag1 ≠ 0x45 ∨ i.mag2 ≠ 0x4c ∨ i.mag3 ≠ 0x46 then some .magic
  else if i.fileClass ≠ 2 then some .fileClass
  else if i.data ≠ 1 then some .endianness
  else if i.version ≠ 1 then some .version
  else if i.osabi ≠ 0 ∧ i.osabi ≠ 3 then some .abi
  else none

/-- `p_type` is `PT_LOAD`. -/
def Phdr.isLoad (ph : Phdr) : Bool := ph.type == 1

/-- `vstart`, which is not set at first, and `proc->size`. -/
structure Extent where
  vstart : Option Word
  size : Word

/-- A turn of the loop that finds the size. -/
def Extent.next (e : Extent) (ph : Phdr) : Extent :=
  if ph.isLoad then
    let vstart := e.vstart.getD ph.vaddr
    ⟨some vstart, ph.vaddr - vstart + ph.memsz⟩
  else e

/-- The loop that finds the size of the memory area. -/
def extent (phdrs : List Phdr) : Extent := phdrs.foldl Extent.next ⟨none, 0⟩

/-- `proc->data` and `proc->size`, with `vbase`. -/
structure Area where
  data : Word
  size : Word
  vbase : Word

/-- The function up to the copy loop, for a file that could be mapped. -/
def reserve (os : Os) (f : File) : Except Failure Area :=
  match f.ident.check with
  | some e => .error e
  | none =>
    let e := extent f.phdrs
    match e.vstart with
    | none => .error .noLoad
    | some vstart =>
      let size := alignSize e.size os.pageSize
      let data := memMap (os.mmap size)
      if data = 0 then .error .memMap else .ok ⟨data, size, data + -vstart⟩

/-- `prs_pal_mem_flags_t`, without what is not a protection. -/
structure Flags where
  read : Bool
  write : Bool
  execute : Bool
  deriving DecidableEq

/-- What the copy loop does to the memory. -/
inductive Effect
  | protect (ptr size : Word) (flags : Flags)
  | copy (dst src size : Word)
  | zero (dst size : Word)
  deriving DecidableEq

/-- The access rights in `p_flags`: `PF_R`, `PF_W` and `PF_X`. -/
def Phdr.access (ph : Phdr) : Flags := ⟨ph.flags &&& 4 != 0, ph.flags &&& 2 != 0, ph.flags &&& 1 != 0⟩

/-- A turn of the copy loop, with whether the loop goes on: `PRS_FATAL_WHEN` stops it after the first
protection. -/
def copySegment (pageSize base vbase : Word) (ph : Phdr) : List Effect × Bool :=
  let pbase := vbase + ph.vaddr
  let unaligned := pbase % pageSize
  let psize := if unaligned = 0 then ph.memsz else ph.memsz + unaligned
  let alignedPbase := if unaligned = 0 then pbase else pbase - unaligned
  let writable := Effect.protect alignedPbase psize ⟨false, true, false⟩
  if ph.filesz > ph.memsz then ([writable], false)
  else
    ([writable, .copy pbase (base + ph.offset) ph.filesz, .zero (pbase + ph.filesz) (ph.memsz - ph.filesz),
      .protect alignedPbase psize ph.access], true)

/-- The copy loop. -/
def copyLoop (pageSize base vbase : Word) : List Phdr → List Effect
  | [] => []
  | ph :: phdrs =>
    if ph.isLoad then
      let turn := copySegment pageSize base vbase ph
      turn.1 ++ if turn.2 then copyLoop pageSize base vbase phdrs else []
    else copyLoop pageSize base vbase phdrs

end Prs.ElfLoad
