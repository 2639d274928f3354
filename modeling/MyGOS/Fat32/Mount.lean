import MyGOS.Fat32.Dir

/-!
# Mounting a volume

The parameter block and the free count are read from the disk; the root
directory gets an entry in memory and the first of the chains.
-/

namespace MyGOS.Fat32

def LEAD_SIGNATURE : Nat := 0x41615252
def STRUCT_SIGNATURE : Nat := 0x61417272
def TRAIL_SIGNATURE : Nat := 0xAA550000

/-- The little-endian number of `size` bytes. -/
def Block.number (b : Block) (offset size : Nat) : Nat :=
  (List.range size).foldr (fun i n => (b (offset + i)).toNat + 2 ^ 8 * n) 0

/-- The boot sector. -/
def BIOSParameterBlock.of_block (b : Block) : BIOSParameterBlock where
  byts_per_sec := b.number 11 2
  sec_per_clus := b.number 13 1
  rsvd_sec_cnt := b.number 14 2
  num_fats := b.number 16 1
  root_ent_cnt := b.number 17 2
  tot_sec32 := b.number 32 4
  fat_sz32 := b.number 36 4
  root_clus := b.number 44 4
  fs_info := b.number 48 2

/-- `FSInfo::check_signature`. -/
def check_signature (fsinfo : Block) : Bool :=
  fsinfo.number 0 4 = LEAD_SIGNATURE ∧ fsinfo.number 484 4 = STRUCT_SIGNATURE ∧
    fsinfo.number 508 4 = TRAIL_SIGNATURE

def ROOT : UInt8 := 0x2F

/-- `FileSystem::open`, and the chain that `root` generates. -/
def open_volume (device : BlockDevice) : Except FsPanic FileSystem :=
  let bpb := BIOSParameterBlock.of_block (device 0)
  let fsinfo := device bpb.fs_info
  if check_signature fsinfo then do
    let fs : FileSystem :=
      { device := device
        free_cluster_cnt := fsinfo.number 488 4
        bpb := bpb
        recycled_cluster := []
        root_dir_entry := .new bpb.root_clus [ROOT] [] .Dir
        chains := fun _ => []
        next_chain := 1 }
    return fs.set_cluster_vec root (← fs.generate (FileSystem.new_chain bpb.root_clus))
  else .error .badSignature

section Floppy

/-- A block that starts with some numbers, each at its offset, and zeros between them. -/
def Block.of_numbers (numbers : List (Nat × Nat × Nat)) : Block := fun i =>
  match numbers.find? fun (offset, size, _) => offset ≤ i ∧ i < offset + size with
  | some (offset, _, n) => UInt8.ofNat (n / 2 ^ (8 * (i - offset)))
  | none => 0

/-- A volume of 16 sectors: the boot sector, `FSInfo`, a FAT of one sector and 13 clusters, the
first of which is the root directory. -/
def floppy (records : List Dirent) : BlockDevice
  | 0 => .of_numbers [(11, 2, BLOCK_SIZE), (13, 1, 1), (14, 2, 2), (16, 1, 1), (32, 4, 16),
      (36, 4, 1), (44, 4, 2), (48, 2, 1)]
  | 1 => .of_numbers [(0, 4, LEAD_SIGNATURE), (484, 4, STRUCT_SIGNATURE), (488, 4, 12),
      (508, 4, TRAIL_SIGNATURE)]
  | 2 => .of_numbers [(0, 4, END_OF_CLUSTER), (4, 4, END_OF_CLUSTER), (8, 4, END_OF_CLUSTER)]
  | 3 => fun i => (records[i / DIRENT_SIZE]?.map fun e => e (Fin.ofNat 32 i)).getD 0
  | _ => fun _ => 0

end Floppy

end MyGOS.Fat32
