import Askai.Library.Bytes

/-!
# The file of a plugin

How the manifest is read from the notes of a shared object, and what a file is refused for
(`plugin_manifest_read` of `plugin.c`).
-/

namespace Askai

open Library

/-- What a file has that is state outside of instances. -/
inductive PluginState
  | constructors | threads | data
  deriving DecidableEq

/-- Why a file is refused. There is no check for `wraps`, a sum that 64 bits do not hold. -/
inductive PluginRefusal
  | malformed | shorter | twice | size | notObject | none_ | state (what : PluginState) | wraps
  deriving DecidableEq

/-- `struct plugin_file`, without the file. -/
structure PluginFile where
  writeFrom : Nat := 2 ^ 64 - 1
  writeTo : Nat := 0
  relroFrom : Nat := 0
  relroTo : Nat := 0
  dest : Bytes := []
  state : Option PluginState := none
  found : Nat := 0
  deriving DecidableEq

/-- `sizeof (struct manifest)`. -/
abbrev manifestSize : Nat := 548

/-- `MANIFEST_TYPE`. -/
abbrev manifestType : Nat := 0x61736b01

/-- `"askai"`, with the byte that ends it. -/
def askaiOwner : Bytes := [97, 115, 107, 97, 105, 0]

/-- A sum in 64 bits. -/
def sum64 (a b : Nat) : Except PluginRefusal Nat :=
  if a + b < 2 ^ 64 then .ok (a + b) else .error .wraps

/-- `x & ~mask`, in 64 bits. -/
def andNot (x mask : Nat) : Nat :=
  x &&& (2 ^ 64 - 1 - mask)

/-- A number in the byte order of the machine. -/
def word (big : Bool) (bytes : Bytes) : Nat :=
  (if big then bytes else bytes.reverse).foldl (fun n b => n * 256 + b.toNat) 0

/-- The `n` bytes at an offset of a structure. -/
def part (bytes : Bytes) (off n : Nat) : Bytes :=
  (bytes.drop off).take n

/-- `plugin_file_read`. -/
def pluginFileRead (file : Bytes) (off end_ n : Nat) : Except PluginRefusal Bytes :=
  if end_ < off ∨ end_ - off < n then .error .malformed
  else if (part file off n).length < n then .error .shorter
  else .ok (part file off n)

/-- The loop of `plugin_file_notes`. -/
def pluginFileNotes (big : Bool) (file : Bytes) (pad end_ : Nat) :
    Nat → Nat → PluginFile → Except PluginRefusal PluginFile
  | 0, _, f => .ok f
  | fuel + 1, off, f =>
    if off < end_ then do
      let nh ← pluginFileRead file off end_ 12
      let namesz := word big (part nh 0 4)
      let descsz := word big (part nh 4 4)
      let type := word big (part nh 8 4)
      let name ← sum64 off 12
      let front ← sum64 namesz pad
      let front ← sum64 front 12
      let desc ← sum64 off (andNot front pad)
      let back ← sum64 descsz pad
      let off ← sum64 desc (andNot back pad)
      if type ≠ manifestType ∨ namesz ≠ askaiOwner.length then pluginFileNotes big file pad end_ fuel off f
      else
        let owner ← pluginFileRead file name end_ askaiOwner.length
        if owner ≠ askaiOwner then pluginFileNotes big file pad end_ fuel off f
        else if f.found ≠ 0 then .error .twice
        else if descsz ≠ manifestSize then .error .size
        else
          let dest ← pluginFileRead file desc end_ manifestSize
          pluginFileNotes big file pad end_ fuel off { f with found := f.found + 1, dest }
    else .ok f

/-- `plugin_file_state`. -/
def PluginFile.setState (f : PluginFile) (what : PluginState) : PluginFile :=
  if f.state = none then { f with state := some what } else f

/-- `DT_INIT`, `DT_FINI`, `DT_INIT_ARRAY`, `DT_FINI_ARRAY` and `DT_PREINIT_ARRAY`. -/
def constructorTags : List Nat := [12, 13, 25, 26, 32]

/-- The loop of `plugin_file_dynamic`. -/
def pluginFileDynamic (big : Bool) (file : Bytes) (end_ : Nat) :
    Nat → Nat → PluginFile → Except PluginRefusal PluginFile
  | 0, _, f => .ok f
  | fuel + 1, off, f =>
    if off < end_ then do
      let dyn ← pluginFileRead file off end_ 16
      let f := if word big (part dyn 0 8) ∈ constructorTags then f.setState .constructors else f
      let off ← sum64 off 16
      pluginFileDynamic big file end_ fuel off f
    else .ok f

/-- The members of `Elf64_Phdr` that are read. -/
structure ElfPhdr where
  type : Nat
  flags : Nat
  offset : Nat
  vaddr : Nat
  filesz : Nat
  memsz : Nat
  align : Nat

/-- `Elf64_Phdr`, as its bytes have it. -/
def ElfPhdr.ofBytes (big : Bool) (ph : Bytes) : ElfPhdr where
  type := word big (part ph 0 4)
  flags := word big (part ph 4 4)
  offset := word big (part ph 8 8)
  vaddr := word big (part ph 16 8)
  filesz := word big (part ph 32 8)
  memsz := word big (part ph 40 8)
  align := word big (part ph 48 8)

/-- `plugin_file_segment`. -/
def pluginFileSegment (big : Bool) (file : Bytes) (f : PluginFile) (ph : ElfPhdr) : Except PluginRefusal PluginFile :=
  if file.length < ph.offset ∨ file.length - ph.offset < ph.filesz ∨ 2 ^ 64 - 1 - ph.vaddr < ph.memsz then
    .error .malformed
  else do
    let end_ ← sum64 ph.offset ph.filesz
    let top ← sum64 ph.vaddr ph.memsz
    if ph.type = 4 then
      pluginFileNotes big file (if ph.align = 8 then 7 else 3) end_ (end_ - ph.offset) ph.offset f
    else if ph.type = 2 then pluginFileDynamic big file end_ (end_ - ph.offset) ph.offset f
    else if ph.type = 7 then .ok (f.setState .threads)
    else if ph.type = 0x6474e552 then .ok { f with relroFrom := ph.vaddr, relroTo := top }
    else if ph.type = 1 then
      .ok (if ph.flags &&& 2 = 0 then f else
        { f with
          writeFrom := if ph.vaddr < f.writeFrom then ph.vaddr else f.writeFrom
          writeTo := if f.writeTo < top then top else f.writeTo })
    else .ok f

/-- The loop of `plugin_manifest_read` over the program headers. -/
def pluginFileSegments (big : Bool) (file : Bytes) : Nat → Nat → PluginFile → Except PluginRefusal PluginFile
  | 0, _, f => .ok f
  | n + 1, off, f => do
      let ph ← pluginFileRead file off file.length 56
      let f ← pluginFileSegment big file f (.ofBytes big ph)
      let off ← sum64 off 56
      pluginFileSegments big file n off f

/-- The machine: its byte order, `e_machine` and the bytes of a page. -/
structure PluginMachine where
  big : Bool
  machine : Nat
  page : Nat

/-- The first `EI_VERSION` bytes of `e_ident`: the magic number, `ELFCLASS64` and the byte order. -/
def PluginMachine.ident (m : PluginMachine) : Bytes :=
  [0x7f, 69, 76, 70, 2, if m.big then 2 else 1]

/-- `plugin_manifest_read`, with `PLUGIN_STATE_REFUSED`, of a regular file that can be read. -/
def pluginManifestRead (m : PluginMachine) (file : Bytes) : Except PluginRefusal Bytes := do
  let eh ← if 64 ≤ file.length then pluginFileRead file 0 file.length 64 else .ok (List.replicate 64 0)
  if part eh 0 6 ≠ m.ident ∨ word m.big (part eh 18 2) ≠ m.machine ∨ word m.big (part eh 16 2) ≠ 3 ∨
      word m.big (part eh 54 2) ≠ 56 then
    .error .notObject
  else
    let f ← pluginFileSegments m.big file (word m.big (part eh 56 2)) (word m.big (part eh 32 8)) {}
    if f.found = 0 then .error .none_
    else
      let f := if f.writeTo ≠ 0 ∧ (f.writeFrom < andNot f.relroFrom (m.page - 1) ∨
          andNot f.relroTo (m.page - 1) < f.writeTo) then f.setState .data else f
      match f.state with
      | some what => .error (.state what)
      | none => .ok f.dest

end Askai
