import MyGOS.Fat32.Bytes

/-!
# Growing a file

`incerase_size` appends a new chain to that of a file. The clusters of both were
in no chain and in the chain of the file, so that they are different.
-/

namespace MyGOS.Fat32

open Outcome

namespace FileSystem

/-- The device shows `d`, and the allocator knows which clusters are free. -/
structure Ready (fs : FileSystem) (d : Disk) : Prop where
  layout : fs.bpb.Layout
  shows_disk : fs.Shows d
  recycled : d.Recycled fs.bpb fs.recycled_cluster
  reserved : d.Reserved

/-- The clusters of a file are a chain of the FAT. -/
structure Chained (fs : FileSystem) (d : Disk) (f : VirtFile) (clusters : List Nat) : Prop where
  vec : fs.cluster_vec f = clusters
  chain : d.Chain clusters
  data : ∀ c ∈ clusters, fs.bpb.InData c

variable {fs : FileSystem} {d d' : Disk} {f : VirtFile} {clusters added : List Nat}

/-- Clusters of a chain are not free. -/
theorem chain_next_ne {bpb : BIOSParameterBlock} (hchain : d.Chain clusters)
    (hdata : ∀ c ∈ clusters, bpb.InData c) : ∀ c ∈ clusters, d.next c ≠ FREE_CLUSTER := by
  intro c hmem hc
  obtain ⟨before, after, rfl⟩ := List.append_of_mem hmem
  have hdrop := hchain.drop before.length
  rw [List.drop_left] at hdrop
  cases after with
  | nil =>
    have hend : END_OF_CLUSTER ≤ d.next c := hdrop
    rw [hc] at hend
    exact absurd hend (by decide)
  | cons c' after =>
    have h2 := (hdata c' (by simp)).1
    have hnext : d.next c = c' := hdrop.1
    unfold FREE_CLUSTER at hc
    omega

theorem Chained.notMem (hf : Chained fs d f clusters) {c : Nat} (hc : d.next c = FREE_CLUSTER) :
    c ∉ clusters := fun hmem => chain_next_ne hf.chain hf.data c hmem hc

section Append

variable {last c : Nat} (hf : Chained fs d f (clusters ++ [last]))
  (hall : d.Allocated fs.bpb d' (c :: added))

include hf hall

theorem notMem_added {x : Nat} (hx : x ∈ clusters ++ [last]) : x ∉ c :: added :=
  fun hmem => hf.notMem (hall.free x hmem) hx

/-- The chain of an allocation is appended to that of a file. -/
theorem chain_append (L : fs.bpb.Layout) :
    (d'.set_next last c).Chain (clusters ++ last :: c :: added) := by
  have hold : d'.Chain (clusters ++ [last]) :=
    hf.chain.congr fun x hx => hall.next_of_notMem x (notMem_added hf hall hx)
  have hc := hall.data c List.mem_cons_self
  exact hold.append hall.chain (not_le.mpr (hc.2.trans_le L.cluster_lt))
    (notMem_added hf hall (List.mem_append_right _ (List.mem_singleton_self last)))

end Append

end FileSystem

end MyGOS.Fat32
