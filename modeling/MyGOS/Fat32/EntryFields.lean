import MyGOS.Fat32.Dirent

/-!
# The fields of an entry

What is written to a field of an entry is read from it, and the other fields
stay as they are.
-/

namespace MyGOS.Fat32

namespace Dirent

section Numbers

variable (e : Dirent) (cluster size : Nat)

theorem first_cluster_eq : e.first_cluster =
    ((e 20).toNat + 2 ^ 8 * (e 21).toNat) * 2 ^ 16 + ((e 26).toNat + 2 ^ 8 * (e 27).toNat) := rfl

theorem file_size_eq : e.file_size =
    (e 28).toNat + 2 ^ 8 * (e 29).toNat + 2 ^ 16 * ((e 30).toNat + 2 ^ 8 * (e 31).toNat) := rfl

theorem first_cluster_set_first_cluster (h : cluster < 2 ^ 32) :
    (e.set_first_cluster cluster).first_cluster = cluster := by
  have h20 : e.set_first_cluster cluster 20 = UInt8.ofNat (cluster / 2 ^ 16) := rfl
  have h21 : e.set_first_cluster cluster 21 = UInt8.ofNat (cluster / 2 ^ 24) := rfl
  have h26 : e.set_first_cluster cluster 26 = UInt8.ofNat cluster := rfl
  have h27 : e.set_first_cluster cluster 27 = UInt8.ofNat (cluster / 2 ^ 8) := rfl
  rw [first_cluster_eq, h20, h21, h26, h27]
  simp only [UInt8.toNat_ofNat']
  omega

theorem file_size_set_first_cluster : (e.set_first_cluster cluster).file_size = e.file_size := rfl

theorem file_size_set_file_size : (e.set_file_size size).file_size = size % 2 ^ 32 := by
  have h28 : e.set_file_size size 28 = UInt8.ofNat (size / 2 ^ 0) := rfl
  have h29 : e.set_file_size size 29 = UInt8.ofNat (size / 2 ^ 8) := rfl
  have h30 : e.set_file_size size 30 = UInt8.ofNat (size / 2 ^ 16) := rfl
  have h31 : e.set_file_size size 31 = UInt8.ofNat (size / 2 ^ 24) := rfl
  rw [file_size_eq, h28, h29, h30, h31]
  simp only [UInt8.toNat_ofNat']
  omega

theorem first_cluster_set_file_size : (e.set_file_size size).first_cluster = e.first_cluster := rfl

theorem first_cluster_delete : e.delete.first_cluster = 0 := by
  have h : e.delete.first_cluster = ((e.set_file_size 0).set_first_cluster 0).first_cluster := rfl
  rw [h, first_cluster_set_first_cluster _ _ (by decide)]

theorem file_size_delete : e.delete.file_size = 0 := by
  have h : e.delete.file_size = (e.set_file_size 0).file_size := rfl
  exact h.trans ((file_size_set_file_size e 0).trans (Nat.zero_mod _))

/-- The name, the attributes and the times are before byte 20. -/
theorem set_first_cluster_of_lt {j : Fin 32} (h : j < 20) : e.set_first_cluster cluster j = e j := by
  have h20 : j ≠ 20 := by omega
  have h21 : j ≠ 21 := by omega
  have h26 : j ≠ 26 := by omega
  have h27 : j ≠ 27 := by omega
  rw [set_first_cluster, if_neg h20, if_neg h21, if_neg h26, if_neg h27]

theorem set_file_size_of_lt {j : Fin 32} (h : j < 20) : e.set_file_size size j = e j := by
  rw [set_file_size, if_neg (by omega)]

end Numbers

end Dirent

end MyGOS.Fat32
