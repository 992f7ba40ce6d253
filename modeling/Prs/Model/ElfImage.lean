import Prs.Lib.Align
import Prs.Lib.Bytes
import Prs.Model.ElfLoad

/-!
# Loading of a process (`pal/linux/proc.c`), to the end

What the copy loop does to the memory, and the steps after it: `prs_pal_proc_load` finds the dynamic symbols,
loads the shared libraries, and stores the addresses of symbols where the relocations say. A page has the
access that `mprotect` gave it last.

The file is mapped for reading, so its bytes do not change. The model ends, with no result, where the program
reads outside of the file, stores to a page that it may not write, or touches a page outside of its area; and
where `PRS_FATAL_WHEN` stops it. `dlsym` is what the dynamic linker says of a name when it has been asked for
libraries, where no address is null. The print of the `.text` section in debug builds is not in the model.
-/

namespace Prs.ElfLoad

open Prs.Stack (Word)

abbrev Name : Type := List (BitVec 8)

/-- `ElfW(Shdr)`. -/
structure Shdr where
  type : BitVec 32
  link : BitVec 32
  offset : Word
  size : Word

/-- The mapped file with its bytes, `e_entry` and the `e_shnum` entries of its section header table. -/
structure Elf extends File where
  bytes : List (BitVec 8)
  entry : Word
  shdrs : List Shdr

structure Linker extends Os where
  dlsym : List Name → Name → Word

/-- The memory: its bytes, and the access to the page of each address. -/
structure Mem where
  byte : Bytes.Mem
  access : ℕ → Flags

/-- Pages without access. -/
def Flags.none : Flags := ⟨false, false, false⟩

/-- The addresses of a range in the area. -/
def Area.Range (area : Area) (ptr : Word) (n : ℕ) : Prop :=
  area.data.toNat ≤ ptr.toNat ∧ ptr.toNat + n ≤ area.data.toNat + area.size.toNat

instance (area : Area) (ptr : Word) (n : ℕ) : Decidable (area.Range ptr n) := inferInstanceAs (Decidable (_ ∧ _))

/-- A range of the area that can be written. -/
def Mem.Writable (m : Mem) (area : Area) (ptr : Word) (n : ℕ) : Prop :=
  area.Range ptr n ∧ ∀ i < n, (m.access (ptr.toNat + i)).write = true

instance (m : Mem) (area : Area) (ptr : Word) (n : ℕ) : Decidable (m.Writable area ptr n) :=
  inferInstanceAs (Decidable (_ ∧ _))

/-- `mprotect` changes whole pages. -/
def Mem.protect (m : Mem) (pageSize : Word) (area : Area) (ptr size : Word) (flags : Flags) : Option Mem :=
  let n := roundUp size.toNat pageSize.toNat
  if area.Range ptr n then
    some { m with access := fun a => if ptr.toNat ≤ a ∧ a < ptr.toNat + n then flags else m.access a }
  else none

/-- `n` bytes are stored at `ptr`. -/
def Mem.fill (m : Mem) (area : Area) (ptr : Word) (n : ℕ) (value : ℕ → BitVec 8) : Option Mem :=
  if n = 0 then some m
  else if m.Writable area ptr n then
    some { m with byte := fun a => if ptr.toNat ≤ a ∧ a < ptr.toNat + n then value (a - ptr.toNat) else m.byte a }
  else none

/-- The store of a word of 64 bits. -/
def Mem.store (m : Mem) (area : Area) (ptr value : Word) : Option Mem :=
  if m.Writable area ptr 8 then some { m with byte := Bytes.store m.byte ptr.toNat 8 value.toNat } else none

/-- The byte at an offset in the file. -/
def Elf.byte (f : Elf) (i : ℕ) : BitVec 8 := f.bytes.getD i 0

/-- An effect of the copy loop. -/
def Elf.run (f : Elf) (pageSize : Word) (area : Area) (m : Mem) : Effect → Option Mem
  | .protect ptr size flags => m.protect pageSize area ptr size flags
  | .copy dst src size =>
    if size = 0 ∨ (src - f.base).toNat + size.toNat ≤ f.bytes.length then
      m.fill area dst size.toNat fun i => f.byte ((src - f.base).toNat + i)
    else none
  | .zero dst size => m.fill area dst size.toNat fun _ => 0

/-- The copy loop, when it is not stopped. -/
def Elf.copy (f : Elf) (pageSize : Word) (area : Area) (m : Mem) : Option Mem :=
  if f.phdrs.any fun ph => ph.isLoad && decide (ph.filesz > ph.memsz) then none
  else (copyLoop pageSize f.base area.vbase f.phdrs).foldlM (f.run pageSize area) m

/-- The word of `n` bytes at an offset in the file. -/
def Elf.read (f : Elf) (offset : Word) (n : ℕ) : Option ℕ :=
  if offset.toNat + n ≤ f.bytes.length then some (Bytes.load f.byte offset.toNat n) else none

/-- The string at an offset in the file. -/
def Elf.string (f : Elf) (offset : Word) : Option Name :=
  let rest := f.bytes.drop offset.toNat
  if 0 ∈ rest then some (rest.takeWhile (· ≠ 0)) else none

/-- The entries of `n` bytes of a section, by their offsets in the file. The count is an `int`. -/
def Shdr.entries (sh : Shdr) (n : ℕ) : List Word :=
  (List.range (BitVec.ofNat 32 (sh.size.toNat / n)).toInt.toNat).map fun j => sh.offset + BitVec.ofNat 64 (n * j)

/-- `sym_base` and `sym_string_base` as offsets in the file, from the first `SHT_DYNSYM` section. No offsets
is when it is not found or when one of the pointers is null. -/
def Elf.symbols (f : Elf) : Option (Option (Word × Word)) :=
  match f.shdrs.find? (·.type = 11) with
  | none => some none
  | some sh => (f.shdrs[sh.link.toNat]?).map fun strings =>
    if f.base + sh.offset = 0 ∨ f.base + strings.offset = 0 then none else some (sh.offset, strings.offset)

/-- The name of the library that the process runs in. -/
def libprs : Name := [0x6c, 0x69, 0x62, 0x70, 0x72, 0x73, 0x2e, 0x73, 0x6f]

/-- The entries of the `SHT_DYNAMIC` sections. -/
def Elf.dynamics (f : Elf) : List Word := (f.shdrs.filter (·.type = 6)).flatMap (·.entries 16)

/-- A turn of the loop that loads the shared libraries, with those that it has asked `dlopen` for. -/
def Elf.open (f : Elf) (strings : Word) (opened : List Name) (dyn : Word) : Option (List Name) := do
  let tag ← f.read dyn 8
  if tag = 1 then
    let val ← f.read (dyn + 8) 8
    let name ← f.string (strings + BitVec.ofNat 64 val)
    pure (if name = libprs then opened else opened ++ [name])
  else pure opened

/-- The entries of the `SHT_REL` and `SHT_RELA` sections. -/
def Elf.relocations (f : Elf) : List Word :=
  f.shdrs.flatMap fun sh => if sh.type = 9 then sh.entries 16 else if sh.type = 4 then sh.entries 24 else []

/-- The store that a relocation asks for: `R_386_GLOB_DAT` and `R_386_JMP_SLOT` for a symbol that is found. -/
def Elf.resolve (l : Linker) (f : Elf) (opened : List Name) (syms strings rela : Word) :
    Option (Option (Word × Word)) := do
  let offset ← f.read rela 8
  let info ← f.read (rela + 8) 8
  let name ← f.read (syms + BitVec.ofNat 64 (24 * (info / 2 ^ 32))) 4
  let symbol ← f.string (strings + BitVec.ofNat 64 name)
  if info % 2 ^ 32 = 6 ∨ info % 2 ^ 32 = 7 then
    let addr := l.dlsym opened symbol
    pure (if addr = 0 then none else some (BitVec.ofNat 64 offset, addr))
  else pure none

/-- A turn of the loop that applies the relocations. -/
def Elf.relocate (l : Linker) (f : Elf) (area : Area) (opened : List Name) (syms strings : Word) (m : Mem)
    (rela : Word) :
    Option Mem := do
  match ← f.resolve l opened syms strings rela with
  | none => pure m
  | some (offset, addr) => m.store area (area.vbase + offset) addr

/-- `struct prs_pal_proc`. -/
structure Proc where
  size : Word
  data : Word
  entry : Word

/-- The ways to `cleanup` after the file is mapped. -/
inductive LoadFailure
  | reserve (e : Failure)
  | dynsym
  deriving DecidableEq

/-- The text of the trace. -/
def LoadFailure.text : LoadFailure → String
  | .reserve e => e.text
  | .dynsym => "SHT_DYNSYM not found"

/-- A new area has zeros, and no access: `PRS_PAL_MEM_FLAG_COMMIT` asks for none. -/
def Mem.map (m : Mem) (area : Area) : Mem where
  byte a := if area.data.toNat ≤ a ∧ a < area.data.toNat + area.size.toNat then 0 else m.byte a
  access a := if area.data.toNat ≤ a ∧ a < area.data.toNat + area.size.toNat then .none else m.access a

/-- `munmap` of the area. -/
def Mem.unmap (m : Mem) (area : Area) : Mem where
  byte := m.byte
  access a := if area.data.toNat ≤ a ∧ a < area.data.toNat + area.size.toNat then .none else m.access a

/-- What the function leaves: its result, the memory and the libraries that it has asked for. -/
structure Loaded where
  result : Except LoadFailure Proc
  mem : Mem
  opened : List Name

/-- `prs_pal_proc_load`, for a file that could be mapped. -/
def Elf.load (l : Linker) (f : Elf) (m : Mem) : Option Loaded :=
  match reserve l.toOs f.toFile with
  | .error e => some ⟨.error (.reserve e), m, []⟩
  | .ok area => do
    let m ← f.copy l.pageSize area (m.map area)
    match ← f.symbols with
    | none => some ⟨.error .dynsym, m.unmap area, []⟩
    | some (syms, strings) =>
      let opened ← f.dynamics.foldlM (f.open strings) []
      let m ← f.relocations.foldlM (f.relocate l area opened syms strings) m
      some ⟨.ok ⟨area.size, area.data, area.vbase + f.entry⟩, m, opened⟩

end Prs.ElfLoad
