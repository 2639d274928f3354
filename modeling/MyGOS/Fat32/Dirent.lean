import MyGOS.Fat32.Volume

/-!
# Directory entries and names

The two packed entry structures as views of 32 bytes, and the functions on
names. A `&str` is its list of characters; `as_bytes` is its UTF-8 encoding.
-/

namespace MyGOS.Fat32

def SPACE : UInt8 := 0x20
def DIR_ENTRY_UNUSED : UInt8 := 0xE5
def LAST_LONG_ENTRY : UInt8 := 0x40
def ATTR_DIRECTORY : UInt8 := 0x10
def ATTR_ARCHIVE : UInt8 := 0x20
def ATTR_LONG_NAME : UInt8 := 0x0F
def LONG_NAME_LEN_CAP : Nat := 13

inductive VirtFileType where
  | Dir
  | File
deriving DecidableEq, Repr

def VirtFileType.attr : VirtFileType → UInt8
  | .Dir => ATTR_DIRECTORY
  | .File => ATTR_ARCHIVE

abbrev Name := List Char

namespace Name

def as_bytes (name : Name) : List UInt8 := name.flatMap String.utf8EncodeChar

/-- `str::len`. -/
def len (name : Name) : Nat := name.as_bytes.length

def encode_utf16_char (c : Char) : List Nat :=
  if c.toNat < 0x10000 then [c.toNat]
  else [0xD800 + (c.toNat - 0x10000) / 0x400, 0xDC00 + (c.toNat - 0x10000) % 0x400]

def encode_utf16 (name : Name) : List Nat := name.flatMap encode_utf16_char

/-- `str::split`. -/
def split (sep : Char) : Name → List Name
  | [] => [[]]
  | c :: cs =>
    if c = sep then [] :: split sep cs
    else
      match split sep cs with
      | [] => [[c]]
      | part :: parts => (c :: part) :: parts

def to_ascii_uppercase (name : Name) : Name := name.map Char.toUpper

def to_ascii_lowercase (name : Name) : Name := name.map Char.toLower

theorem split_of_notMem {sep : Char} {name : Name} (h : sep ∉ name) : name.split sep = [name] := by
  induction name with
  | nil => rfl
  | cons c cs ih =>
    rw [List.mem_cons, not_or] at h
    rw [split, if_neg (Ne.symm h.1), ih h.2]

theorem split_append {sep : Char} {name : Name} (h : sep ∉ name) (ext : Name) :
    (name ++ sep :: ext).split sep = name :: ext.split sep := by
  induction name with
  | nil => rw [List.nil_append, split, if_pos rfl]
  | cons c cs ih =>
    rw [List.mem_cons, not_or] at h
    rw [List.cons_append, split, if_neg (Ne.symm h.1), ih h.2]

/-- An ASCII name has a byte for each character. -/
theorem len_of_ascii {name : Name} (h : ∀ c ∈ name, c.utf8Size = 1) : name.len = name.length := by
  induction name with
  | nil => rfl
  | cons c cs ih =>
    have hc := h c List.mem_cons_self
    have hcs := ih fun c hc => h c (List.mem_cons_of_mem _ hc)
    rw [len, as_bytes] at hcs ⊢
    rw [List.flatMap_cons, List.length_append, hcs, String.length_utf8EncodeChar, hc,
      List.length_cons, Nat.add_comm]

end Name

/-- `u8 as char`. -/
def char_of_byte (b : UInt8) : Char := Char.ofNat b.toNat

/-- `(b as char).to_ascii_uppercase() as u8`. -/
def byte_to_uppercase (b : UInt8) : UInt8 := if 97 ≤ b ∧ b ≤ 122 then b - 32 else b

def split_name_ext (name : Name) : Name × Name :=
  if name = ['.'] then (['.'], [])
  else if name = ['.', '.'] then (['.', '.'], [])
  else
    match name.split '.' with
    | name :: ext :: _ => (name, ext)
    | name_and_ext => (name_and_ext.headD [], [])

theorem split_name_ext_append {name ext : Name} (hname : '.' ∉ name) (hext : '.' ∉ ext)
    (hne : name ≠ []) : split_name_ext (name ++ '.' :: ext) = (name, ext) := by
  have hhead : ∀ rest, name ++ '.' :: ext ≠ '.' :: rest := by
    intro rest he
    cases name with
    | nil => exact hne rfl
    | cons c cs =>
      rw [List.cons_append, List.cons.injEq] at he
      exact hname (he.1 ▸ List.mem_cons_self)
  rw [split_name_ext, if_neg (hhead _), if_neg (hhead _), Name.split_append hname,
    Name.split_of_notMem hext]

/-- The string in pieces of `LONG_NAME_LEN_CAP` units, the last one padded. -/
def long_name_split (name : Name) : List (List Nat) :=
  let units := name.encode_utf16
  let lfn_cnt := (units.length + LONG_NAME_LEN_CAP - 1) / LONG_NAME_LEN_CAP
  let padded :=
    if units.length < lfn_cnt * LONG_NAME_LEN_CAP then
      units ++ [0] ++ List.replicate (lfn_cnt * LONG_NAME_LEN_CAP - (units.length + 1)) 0xFFFF
    else units
  padded.toChunks LONG_NAME_LEN_CAP

/-- The bytes of an upper-case field of a short name. -/
def short_field (size : Nat) (bytes : List UInt8) : List UInt8 :=
  (List.range size).map fun i => (bytes[i]?.map byte_to_uppercase).getD SPACE

def short_name_format (name : Name) : List UInt8 × List UInt8 :=
  let (name, ext) := split_name_ext name
  (short_field 8 name.as_bytes, short_field 3 ext.as_bytes)

def generate_short_name (long_name : Name) : Name :=
  let (name, ext) := split_name_ext long_name
  let short_name := (name.as_bytes.take 6).map (fun b => (char_of_byte b).toUpper) ++ ['~', '1']
  let short_name := short_name ++ List.replicate (8 - Name.len short_name) ' '
  short_name ++ (List.range 3).map fun i =>
    (ext.as_bytes[i]?.map fun b => (char_of_byte b).toUpper).getD ' '

namespace Dirent

def le_u16 (e : Dirent) (i : Fin 31) : Nat :=
  (e i.castSucc).toNat + 2 ^ 8 * (e i.succ).toNat

/-- `ShortDirEntry::empty`. -/
def empty : Dirent := fun i => if i = 11 then ATTR_ARCHIVE else 0

/-- `LongDirEntry::empty`. -/
def empty_long : Dirent := fun i => if i = 11 then ATTR_LONG_NAME else 0

section Short

def name (e : Dirent) : List UInt8 := (List.finRange 8).map fun i => e (i.castLE (by decide))

def extension (e : Dirent) : List UInt8 :=
  (List.finRange 3).map fun i => e ((i.natAdd 8).castLE (by decide))

def attr (e : Dirent) : UInt8 := e 11

def set_first_cluster (e : Dirent) (cluster : Nat) : Dirent := fun i =>
  if i = 20 then UInt8.ofNat (cluster / 2 ^ 16)
  else if i = 21 then UInt8.ofNat (cluster / 2 ^ 24)
  else if i = 26 then UInt8.ofNat cluster
  else if i = 27 then UInt8.ofNat (cluster / 2 ^ 8)
  else e i

def first_cluster (e : Dirent) : Nat := e.le_u16 20 * 2 ^ 16 + e.le_u16 26

def file_size (e : Dirent) : Nat := e.le_u16 28 + 2 ^ 16 * e.le_u16 30

theorem file_size_lt (e : Dirent) : e.file_size < 2 ^ 32 := by
  have hlt : ∀ i, e.le_u16 i < 2 ^ 16 := by
    intro i
    have h₀ := (e i.castSucc).toNat_lt
    have h₁ := (e i.succ).toNat_lt
    unfold le_u16
    omega
  have h₀ := hlt 28
  have h₁ := hlt 30
  unfold file_size
  omega

def set_file_size (e : Dirent) (file_size : Nat) : Dirent := fun i =>
  if 28 ≤ i then UInt8.ofNat (file_size / 2 ^ (8 * (i.val - 28))) else e i

/-- `ShortDirEntry::new`, for fields of full length. -/
def new (cluster : Nat) (name extension : List UInt8) (create_type : VirtFileType) : Dirent :=
  set_first_cluster (fun i =>
    if i < 8 then (name[i.val]?.map byte_to_uppercase).getD SPACE
    else if i < 11 then (extension[i.val - 8]?.map byte_to_uppercase).getD SPACE
    else if i = 11 then create_type.attr
    else 0) cluster

def is_deleted (e : Dirent) : Bool := e 0 = DIR_ENTRY_UNUSED

def is_empty (e : Dirent) : Bool := e 0 = 0

def delete (e : Dirent) : Dirent :=
  Function.update ((e.set_file_size 0).set_first_cluster 0) 0 DIR_ENTRY_UNUSED

def gen_check_sum (e : Dirent) : Nat :=
  (e.name ++ e.extension).foldl (fun sum b => (sum % 2 * 2 ^ 7 + sum / 2 + b.toNat) % 256) 0

def get_name_uppercase (e : Dirent) : Name :=
  let extension := (e.extension.takeWhile (· ≠ SPACE)).map char_of_byte
  (e.name.takeWhile (· ≠ SPACE)).map char_of_byte ++
    if extension = [] then [] else '.' :: extension

end Short

section Long

/-- Where the unit `j` of the name is: `name1`, `name2` or `name3`. -/
def unit_pos (j : Fin 13) : Fin 31 :=
  if j < 5 then ⟨1 + 2 * j, by omega⟩
  else if j < 11 then ⟨14 + 2 * (j - 5), by omega⟩
  else ⟨28 + 2 * (j - 11), by omega⟩

def name_utf16 (e : Dirent) : List Nat := (List.finRange 13).map fun j => e.le_u16 (unit_pos j)

def order (e : Dirent) : UInt8 := e 0

def check_sum (e : Dirent) : Nat := (e 13).toNat

/-- `LongDirEntry::delete`. -/
def delete_long (e : Dirent) : Dirent := Function.update e 0 DIR_ENTRY_UNUSED

def new_form_name_slice (order : UInt8) (name_array : List Nat) (check_sum : Nat) : Dirent :=
  fun i =>
    if i = 0 then order
    else if i = 13 then UInt8.ofNat check_sum
    else
      match (List.finRange 13).find? fun j => (unit_pos j).castSucc = i ∨ (unit_pos j).succ = i with
      | some j =>
        let unit := name_array.getD j 0
        if (unit_pos j).castSucc = i then UInt8.ofNat unit else UInt8.ofNat (unit / 2 ^ 8)
      | none => empty_long i

end Long

end Dirent

end MyGOS.Fat32
