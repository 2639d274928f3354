import MyGOS.Basic
import Mathlib.Data.List.Range

/-!
# Virtual addresses and page numbers
-/

namespace MyGOS.Mm

/-- `VirtAddr::from(usize)`: a value of more than 39 bits becomes one of the upper half. -/
def virt_addr (value : Nat) : Nat :=
  if value < 2 ^ 39 then value else value % 2 ^ 39 + (2 ^ 64 - 2 ^ 39)

def floor (va : Nat) : Nat := va / PAGE_SIZE

def ceil (va : Nat) : Nat := (PAGE_SIZE - 1 + va) % 2 ^ 64 / PAGE_SIZE

def page_offset (va : Nat) : Nat := va % PAGE_SIZE

/-- The three indices of `VirtPageNum::indexes`, nine bits each, as one number. -/
def index (vpn : Nat) : Nat := vpn % 2 ^ 27

/-- The first index alone. -/
def dir_index (vpn : Nat) : Nat := index vpn / 2 ^ 18

/-- The first two indices. -/
def tab_index (vpn : Nat) : Nat := index vpn / 2 ^ 9

theorem tab_index_div (vpn : Nat) : tab_index vpn / 2 ^ 9 = dir_index vpn :=
  Nat.div_div_eq_div_mul _ _ _

theorem dir_index_congr {v vpn : Nat} (h : index v = index vpn) : dir_index v = dir_index vpn := by
  rw [dir_index, dir_index, h]

theorem tab_index_congr {v vpn : Nat} (h : index v = index vpn) : tab_index v = tab_index vpn := by
  rw [tab_index, tab_index, h]

structure VPNRange where
  start : Nat
  end_ : Nat
  start_le : start ≤ end_

namespace VPNRange

def from_va (start_va end_va : Nat) : Except Panic VPNRange :=
  if h : floor start_va ≤ ceil end_va then .ok ⟨floor start_va, ceil end_va, h⟩
  else .error (.badRange (floor start_va) (ceil end_va))

/-- The pages in the order of `into_iter`. -/
def vpns (r : VPNRange) : List Nat := List.range' r.start (r.end_ - r.start)

instance : Membership Nat VPNRange := ⟨fun r vpn => r.start ≤ vpn ∧ vpn < r.end_⟩

instance (vpn : Nat) (r : VPNRange) : Decidable (vpn ∈ r) :=
  inferInstanceAs (Decidable (_ ∧ _))

theorem mem_def {vpn : Nat} {r : VPNRange} : vpn ∈ r ↔ r.start ≤ vpn ∧ vpn < r.end_ := Iff.rfl

@[simp] theorem mem_vpns {vpn : Nat} {r : VPNRange} : vpn ∈ r.vpns ↔ vpn ∈ r := by
  have hle := r.start_le
  rw [vpns, List.mem_range'_1, mem_def]
  omega

theorem nodup_vpns (r : VPNRange) : r.vpns.Nodup := List.nodup_range'

end VPNRange

end MyGOS.Mm
