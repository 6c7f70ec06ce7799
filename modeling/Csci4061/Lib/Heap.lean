import Csci4061.Lib.CMemory
import Csci4061.Lib.Strtok
import Mathlib.Logic.Function.Basic

/-!
# Allocated blocks

The heap has blocks of bytes and blocks of pointers under the addresses which `malloc` returned. A
pointer is the address of a block and an offset in it. `free` takes the start of a block which is
allocated, so a block which is released twice, or through a pointer into its middle, is `none`, and so
is an access to a block which is not allocated. The position which `strtok` saves is a part of this
state, as its next call goes on from there.
-/

namespace Csci4061.Lib

/-- A pointer into a block. -/
structure Pointer where
  block : ℕ
  offset : ℕ
  deriving DecidableEq

/-- What a block holds. A pointer in it may be `NULL`. -/
inductive Block
  | chars (memory : List UInt8)
  | pointers (cells : List (Option Pointer))
  deriving DecidableEq

/-- The blocks which are allocated, and the position which `strtok` saved. -/
structure Heap where
  blocks : ℕ → Option Block
  saved : Option Pointer

namespace Heap

/-- Another block under an address, or none. -/
def setBlock (h : Heap) (address : ℕ) (block : Option Block) : Heap :=
  { h with blocks := Function.update h.blocks address block }

/-- `malloc`, which succeeds and returns an address that is not in use, for the block which is found
there. -/
def malloc (h : Heap) (address : ℕ) (block : Block) : Option Heap :=
  if h.blocks address = none then some (h.setBlock address (some block)) else none

/-- `free`. -/
def free (h : Heap) (p : Pointer) : Option Heap :=
  if p.offset = 0 ∧ h.blocks p.block ≠ none then some (h.setBlock p.block none) else none

/-- The bytes in a block. -/
def chars (h : Heap) (address : ℕ) : Option (List UInt8) :=
  match h.blocks address with
  | some (.chars memory) => some memory
  | _ => none

/-- The pointers in a block. -/
def pointers (h : Heap) (address : ℕ) : Option (List (Option Pointer)) :=
  match h.blocks address with
  | some (.pointers cells) => some cells
  | _ => none

/-- `strcpy` to the start of a block. -/
def strcpy (h : Heap) (address : ℕ) (src : CString) : Option Heap :=
  (h.chars address).bind fun memory => (Lib.strcpy memory src).map fun memory =>
    h.setBlock address (some (.chars memory))

/-- Store a pointer in an element of a block. -/
def store (h : Heap) (address i : ℕ) (p : Option Pointer) : Option Heap :=
  (h.pointers address).bind fun cells => (writeSlot cells i p).map fun cells =>
    h.setBlock address (some (.pointers cells))

/-- The string which a pointer points to. It has to end inside its block. -/
def stringAt (h : Heap) (p : Pointer) : Option CString :=
  (h.chars p.block).bind fun memory =>
    if 0 ∈ memory.drop p.offset then some (cString (memory.drop p.offset)) else none

/-- The heap after a call of `strtok` in a block: the bytes of the block, and the saved position
in it. -/
def scan (h : Heap) (address : ℕ) (memory : List UInt8) (pos : ℕ) : Heap :=
  { h.setBlock address (some (.chars memory)) with saved := some ⟨address, pos⟩ }

/-- The heap with another saved position. -/
def seek (h : Heap) (p : Pointer) : Heap := { h with saved := some p }

/-- `strtok`, from a pointer on or, for `NULL`, from the saved position on: the token or `NULL`. -/
def strtok (h : Heap) (s : Option Pointer) (delims : CString) : Option (Option Pointer × Heap) :=
  (s.or h.saved).bind fun p => (h.chars p.block).bind fun memory =>
    if 0 ∈ memory.drop p.offset then
      let (token, memory', pos) := Lib.strtok delims memory p.offset
      some (token.map fun start => ⟨p.block, start⟩, h.scan p.block memory' pos)
    else none

variable {h : Heap} {address : ℕ}

/-- Setting a block changes no other one. -/
@[simp] theorem setBlock_blocks (h : Heap) (address : ℕ) (block : Option Block) :
    (h.setBlock address block).blocks = Function.update h.blocks address block := rfl

/-- Setting a block keeps the saved position. -/
@[simp] theorem setBlock_saved (h : Heap) (address : ℕ) (block : Option Block) :
    (h.setBlock address block).saved = h.saved := rfl

/-- Of two blocks under one address the last one counts. -/
@[simp] theorem setBlock_setBlock (h : Heap) (address : ℕ) (block block' : Option Block) :
    (h.setBlock address block).setBlock address block' = h.setBlock address block' := by
  simp [setBlock]

/-- An address which is not in use is returned. -/
theorem malloc_of_free (hfree : h.blocks address = none) (block : Block) :
    h.malloc address block = some (h.setBlock address (some block)) := if_pos hfree

/-- The start of an allocated block is released. -/
theorem free_of_start (hlive : h.blocks address ≠ none) :
    h.free ⟨address, 0⟩ = some (h.setBlock address none) :=
  if_pos ⟨rfl, hlive⟩

/-- The bytes of a block. -/
theorem chars_of_block {memory : List UInt8} (hblock : h.blocks address = some (.chars memory)) :
    h.chars address = some memory := by
  rw [chars, hblock]

/-- The pointers of a block. -/
theorem pointers_of_block {cells : List (Option Pointer)}
    (hblock : h.blocks address = some (.pointers cells)) :
    h.pointers address = some cells := by
  rw [pointers, hblock]

/-- A string which fits is copied to a block of bytes. -/
theorem strcpy_of_lt {memory : List UInt8} {src : CString}
    (hblock : h.blocks address = some (.chars memory)) (hfits : src.length < memory.length) :
    h.strcpy address src = some
    (h.setBlock address (some (.chars (storeBytes memory (src ++ [0]))))) := by
  rw [strcpy, chars_of_block hblock, Option.bind_some, Lib.strcpy_of_lt _ _ hfits, Option.map_some]

/-- A string which fills a block is all of it, with its terminator. -/
theorem strcpy_of_length {memory : List UInt8} {src : CString}
    (hblock : h.blocks address = some (.chars memory)) (hlength : memory.length = src.length + 1) :
    h.strcpy address src = some (h.setBlock address (some (.chars (src ++ [0])))) := by
  rw [strcpy_of_lt hblock (by omega), storeBytes_of_length (by simp [hlength])]

/-- A pointer is stored behind the elements which are done. -/
theorem store_append_cons {done todo : List (Option Pointer)} {c : Option Pointer}
    (hblock : h.blocks address = some (.pointers (done ++ c :: todo))) (p : Option Pointer) :
    h.store address done.length p = some
    (h.setBlock address (some (.pointers (done ++ p :: todo)))) := by
  rw [store, pointers_of_block hblock, Option.bind_some, writeSlot_append_cons, Option.map_some]

/-- The string at a pointer. -/
theorem stringAt_of_block {memory : List UInt8} (hblock : h.blocks address = some (.chars memory))
    {offset : ℕ} (hend : 0 ∈ memory.drop offset) :
    h.stringAt ⟨address, offset⟩ = some (cString (memory.drop offset)) := by
  rw [stringAt, chars_of_block hblock, Option.bind_some, if_pos hend]

/-- A call of `strtok` changes its block only. -/
@[simp] theorem scan_blocks (h : Heap) (address : ℕ) (memory : List UInt8) (pos : ℕ) :
    (h.scan address memory pos).blocks = Function.update h.blocks address (some (.chars memory)) := rfl

/-- The position which a call of `strtok` saves. -/
@[simp] theorem scan_saved (h : Heap) (address : ℕ) (memory : List UInt8) (pos : ℕ) :
    (h.scan address memory pos).saved = some ⟨address, pos⟩ := rfl

/-- Of several calls of `strtok` in a block the last one counts. -/
@[simp] theorem scan_scan (h : Heap) (address : ℕ) (memory memory' : List UInt8) (pos pos' : ℕ) :
    (h.scan address memory pos).scan address memory' pos' = h.scan address memory' pos' := by
  simp [scan, setBlock]

/-- A call of `strtok` for a string is one for `NULL` with the start of the string as saved position. -/
theorem strtok_some (h : Heap) (p : Pointer) (delims : CString) :
    h.strtok (some p) delims = (h.seek p).strtok none delims := rfl

/-- Another saved position changes no block. -/
@[simp] theorem seek_blocks (h : Heap) (p : Pointer) : (h.seek p).blocks = h.blocks := rfl

/-- The new saved position. -/
@[simp] theorem seek_saved (h : Heap) (p : Pointer) : (h.seek p).saved = some p := rfl

/-- A call of `strtok` saves its own position. -/
@[simp] theorem seek_scan (h : Heap) (p : Pointer) (address : ℕ) (memory : List UInt8) (pos : ℕ) :
    (h.seek p).scan address memory pos = h.scan address memory pos := rfl

/-- A call of `strtok` which finds nothing new changes nothing. -/
theorem scan_self {memory : List UInt8} {pos : ℕ} (hblock : h.blocks address = some (.chars memory))
    (hsaved : h.saved = some ⟨address, pos⟩) : h.scan address memory pos = h := by
  cases h
  simp only at hblock hsaved
  rw [scan, setBlock, ← hblock, Function.update_eq_self, hsaved]

/-- A call of `strtok` in a block of bytes with a terminator behind the position. -/
theorem strtok_of_block {memory : List UInt8} {pos : ℕ} {s : Option Pointer} (delims : CString)
    (hblock : h.blocks address = some (.chars memory)) (hposition : s.or h.saved = some ⟨address, pos⟩)
    (hend : 0 ∈ memory.drop pos) {token : Option ℕ} {memory' : List UInt8} {pos' : ℕ}
    (hcall : Lib.strtok delims memory pos = (token, memory', pos')) :
    h.strtok s delims = some (token.map fun start => ⟨address, start⟩, h.scan address memory' pos') := by
  rw [strtok, hposition, Option.bind_some, chars_of_block hblock, Option.bind_some, if_pos hend]
  simp only [hcall]

variable {delims : CString} {pre rest : List UInt8} {s : Option Pointer}

/-- Behind a prefix and a string there is its terminator. -/
theorem zero_mem_drop (pre rest : List UInt8) : 0 ∈ (pre ++ rest ++ [0]).drop pre.length := by
  rw [List.append_assoc, List.drop_left]
  exact List.mem_append_right _ (List.mem_singleton_self 0)

/-- The terminator of a block does not matter to a call. -/
theorem strtok_terminated (hzero : 0 ∉ rest) : Lib.strtok delims (pre ++ rest ++ [0]) pre.length =
    ((Lib.strtok delims (pre ++ rest) pre.length).1, (Lib.strtok delims (pre ++ rest) pre.length).2.1 ++
      [0], (Lib.strtok delims (pre ++ rest) pre.length).2.2) := by
  apply strtok_append_closed
  · simp
  · rwa [List.drop_left]
  · simp

/-- A call in a block without a word behind the position gives `NULL`. -/
theorem strtok_none_of_block (hblock : h.blocks address = some (.chars (pre ++ rest ++ [0])))
    (hposition : s.or h.saved = some ⟨address, pre.length⟩) (hzero : 0 ∉ rest)
    (hwords : tokens (separates delims) rest = []) :
    h.strtok s delims = some (none, h.scan address (pre ++ rest ++ [0]) (pre.length + rest.length)) := by
  have hcall := @strtok_terminated delims pre rest hzero
  rw [strtok_none hzero hwords] at hcall
  exact strtok_of_block delims hblock hposition (zero_mem_drop pre rest) hcall

/-- A call in a block which finds a token gives a pointer to it. -/
theorem strtok_token_of_block {pre' rest' : List UInt8} {start : ℕ}
    (hblock : h.blocks address = some (.chars (pre ++ rest ++ [0])))
    (hposition : s.or h.saved = some ⟨address, pre.length⟩) (hzero : 0 ∉ rest)
    (hcall : Lib.strtok delims (pre ++ rest) pre.length = (some start, pre' ++ rest', pre'.length)) :
    h.strtok s delims = some (some ⟨address, start⟩,
      h.scan address (pre' ++ rest' ++ [0]) pre'.length) := by
  have hterminated := @strtok_terminated delims pre rest hzero
  rw [hcall] at hterminated
  exact strtok_of_block delims hblock hposition (zero_mem_drop pre rest) hterminated

/-- `memcpy` of the first `n` bytes of one block to the start of another. Both have to have them. -/
def memcpy (h : Heap) (dest src n : ℕ) : Option Heap :=
  (h.chars src).bind fun data => if n ≤ data.length then
    (h.chars dest).bind fun memory => (Lib.memcpy memory (data.take n)).map fun memory =>
      h.setBlock dest (some (.chars memory))
  else none

/-- Setting what is there changes nothing. -/
theorem setBlock_of_blocks {block : Option Block} (hblock : h.blocks address = block) :
    h.setBlock address block = h := by
  rw [setBlock, ← hblock, Function.update_eq_self]

/-- A string which is the whole content of a block. -/
theorem stringAt_of_append (text rest : List UInt8)
    (hblock : h.blocks address = some (.chars (text ++ 0 :: rest)))
    (hzero : 0 ∉ text) : h.stringAt ⟨address, 0⟩ = some text := by
  rw [stringAt_of_block hblock (by simp), List.drop_zero, cString_append_zero hzero]

/-- Bytes which are there are copied to a block of their size. -/
theorem memcpy_of_length {dest src n : ℕ} {data memory : List UInt8}
    (hsrc : h.blocks src = some (.chars data)) (hdest : h.blocks dest = some (.chars memory))
    (hlength : memory.length = n) :
    h.memcpy dest src n =
      if n ≤ data.length then some (h.setBlock dest (some (.chars (data.take n)))) else none := by
  rw [memcpy, chars_of_block hsrc, Option.bind_some]
  split
  · rename_i hle
    have htake : (data.take n).length = memory.length := by
      rw [List.length_take, hlength, Nat.min_eq_left hle]
    rw [chars_of_block hdest, Option.bind_some, memcpy_of_le htake.le, Option.map_some,
      storeBytes_of_length htake]
  · rfl

end Heap

end Csci4061.Lib
