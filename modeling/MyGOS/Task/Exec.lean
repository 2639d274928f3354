import MyGOS.Mm.LoadedSegments
import MyGOS.Task.InitUstack
import MyGOS.Task.SignalReturn

/-!
# Executing a program

`sys_exec` reads the strings of the caller, loads the program into an address
space of its own, drops the caller's and builds the new stack. The new program
finds its stack pointer in the trap context.
-/

namespace MyGOS.Task

open Mm Outcome CMemory
open LittleEndian (bytes)

/-- What the ELF headers of a program and of its interpreter say besides their segments. -/
structure ElfHeader where
  ph_offset : UInt64
  ph_entry_size : UInt64
  ph_count : UInt64
  entry_point : UInt64
  interp_entry_point : UInt64

/-- What `exec` asks of the file that `open` found. -/
structure AppFile where
  name : List Char
  file_size : Nat
  elf : ElfFile
  header : ElfHeader

structure LoadedELF where
  memory_set : MemorySet
  user_stack_top : Nat
  elf_entry : UInt64
  auxs : List AuxEntry

/-- The program that is loaded once, at boot. -/
structure Busybox where
  inner : MemorySet
  elf_entry_point : UInt64
  aux : List AuxEntry

def CLOCK_FREQ : UInt64 := 12500000

namespace AppFile

/-- `head_va`, of the first segment. -/
def head_va (f : AppFile) : Nat :=
  match f.elf.load with
  | [] => 0
  | ph :: _ => virt_addr ph.virtual_addr

def entry_point (f : AppFile) : UInt64 :=
  if f.elf.interpreter.isSome then UInt64.ofNat LINK_BASE + f.header.interp_entry_point
  else f.header.entry_point

/-- The auxiliary entries that `load_elf` pushes. -/
def auxs (f : AppFile) : List AuxEntry :=
  [⟨7, if f.elf.interpreter.isSome then UInt64.ofNat LINK_BASE else 0⟩,
    ⟨0x21, 0⟩, ⟨0x28, 0⟩, ⟨0x29, 0⟩, ⟨0x2a, 0⟩, ⟨0x2b, 0⟩, ⟨0x2c, 0⟩, ⟨0x2d, 0⟩,
    ⟨16, 0⟩, ⟨6, UInt64.ofNat PAGE_SIZE⟩, ⟨17, CLOCK_FREQ⟩,
    ⟨3, UInt64.ofNat f.head_va + f.header.ph_offset⟩, ⟨4, f.header.ph_entry_size⟩,
    ⟨5, f.header.ph_count⟩, ⟨8, 0⟩, ⟨9, f.header.entry_point⟩, ⟨11, 0⟩, ⟨12, 0⟩, ⟨13, 0⟩, ⟨14, 0⟩,
    ⟨23, 0⟩, ⟨25, UInt64.ofNat (USER_STACK_BASE - 16)⟩]

theorem length_auxs (f : AppFile) : f.auxs.length = 22 := rfl

theorem key_ne_zero (f : AppFile) : ∀ e ∈ f.auxs, e.key ≠ 0 := by
  simp [auxs]

end AppFile

/-- `load_elf`; the file with this name is a copy of the one in memory. -/
def load_elf (text : KernelImage) (f : AppFile) (b : Busybox) (ph : Phys) :
    Except Panic (LoadedELF × Busybox × Phys) :=
  if f.name = ['B', 'U', 'S', 'Y', 'B', 'O', 'X'] then do
    let (parent, child, ph) ← b.inner.from_copy_on_write text ph
    return (⟨child, child.user_stack_end, b.elf_entry_point, b.aux⟩, { b with inner := parent }, ph)
  else do
    let (ms, ph) ← MemorySet.load_elf text f.elf ph
    return (⟨ms, USER_STACK_BASE, f.entry_point, f.auxs⟩, b, ph)

/-- What a new trap context takes from the kernel. -/
structure KernelEntry where
  sstatus : BitVec 64
  kernel_satp : BitVec 64
  kernel_sp : BitVec 64
  trap_handler : BitVec 64
  hartid : BitVec 64

def TrapContext.app_init_context (k : KernelEntry) (entry sp : BitVec 64) : TrapContext :=
  TrapContext.set_x
    { x := fun _ => 0
      sstatus := k.sstatus
      sepc := entry
      kernel_satp := k.kernel_satp
      kernel_sp := k.kernel_sp
      trap_handler := k.trap_handler
      executor_id := k.hartid
      freg := fun _ => 0 } 2 sp

/-- The caller; `is_main` says that its `pid` is its `tgid`. -/
structure ExecState where
  is_main : Bool
  memory_set : MemorySet
  trap_cx_ppn : Nat
  busybox : Busybox
  ph : Phys

/-- `open_` resolves a path in the working directory and opens what it finds. -/
structure ExecEnv where
  text : KernelImage
  kernel : KernelEntry
  open_ : List Char → Except Errno AppFile

/-- `TaskControlBlock::exec`. The `take` of an entry that `find` returns leaves the descriptor
table as it is. -/
def exec (env : ExecEnv) (s : ExecState) (f : AppFile) (args envs : List (List Char)) :
    Except Panic ExecState := do
  let (e, busybox, ph) ← load_elf env.text f s.busybox s.ph
  if s.is_main then
    match e.memory_set.translate (floor TRAP_CONTEXT_BASE) with
    | none => .error (.notTranslated (floor TRAP_CONTEXT_BASE))
    | some pte =>
      let ph ← s.memory_set.drop ph
      let ((user_sp, _, _), ms, ph) ←
        init_ustack (e.memory_set, ph) e.user_stack_top args envs e.auxs
      let trap_cx := TrapContext.app_init_context env.kernel
        (BitVec.ofNat 64 e.elf_entry.toNat) (BitVec.ofNat 64 user_sp)
      return { s with
        memory_set := ms
        trap_cx_ppn := pte.ppn
        busybox := busybox
        ph := ph.write pte.ppn 0 trap_cx.bytes }
  else .error .assertion

/-- The entries that the kernel adds. -/
def fixed_envs : List (List Char) :=
  [['P', 'A', 'T', 'H', '=', '/'],
    ['L', 'D', '_', 'L', 'I', 'B', 'R', 'A', 'R', 'Y', '_', 'P', 'A', 'T', 'H', '=', '/'],
    ['E', 'N', 'O', 'U', 'G', 'H', '=', '5', '0', '0', '0']]

/-- `path.ends_with(".sh")`. -/
def is_script (path : List Char) : Bool := ['.', 's', 'h'].isSuffixOf path

def sys_exec (env : ExecEnv) (s : ExecState) (path argv envp : Nat) :
    Except Panic (Except Errno Nat × ExecState) := do
  let path ← translated_str (s.memory_set, s.ph) path
  let (path, args_vec) :=
    if is_script path then (['b', 'u', 's', 'y', 'b', 'o', 'x'], [['s', 'h']]) else (path, [])
  let (args, ms, ph) ← read_strs argv (s.memory_set, s.ph)
  let (envs, ms, ph) ← read_strs envp (ms, ph)
  let s := { s with memory_set := ms, ph := ph }
  match env.open_ path with
  | .error e => return (.error e, s)
  | .ok f =>
    if f.file_size < 64 then return (.error .ENOEXEC, s)
    else
      let s ← exec env s f (args_vec ++ args) (envs ++ fixed_envs)
      return (.ok 0, s)

section Loaded

variable {text : KernelImage} {E : Multiset Nat} {b : Busybox} {f : AppFile} {ph : Phys}

/-- The program in memory never ran: its stack is as `load_elf` left it. -/
structure Busybox.Ready (text : KernelImage) (E : Multiset Nat) (b : Busybox) (ph : Phys) : Prop where
  laid : Laid b.inner
  tracked : Tracked text b.inner
  untouched : ∀ va, InUserStack va → b.inner.translate (floor va) = none
  count : ∀ p ∈ b.inner.cow_shares,
    (b.inner.owned + E).count p + b.inner.cow_shares.count p ≤ 255
  aux : ∃ f : AppFile, b.aux = f.auxs

/-- A new address space, in which nothing is on the stack that it shares. -/
structure Fresh (text : KernelImage) (E : Multiset Nat) (e : LoadedELF) (ph : Phys) : Prop where
  grounded : Grounded text E e.memory_set ph
  top : e.user_stack_top = USER_STACK_BASE
  aux : ∃ f : AppFile, e.auxs = f.auxs

theorem Busybox.Ready.forked {parent child : MemorySet} {ph' : Phys} (h : b.Ready text E ph)
    (howned : Owned ph.allocator (b.inner.owned + E))
    (hok : b.inner.from_copy_on_write text ph = .ok (parent, child, ph')) :
    Grounded text (parent.owned + E) child ph' := by
  have hcount (p : Nat) : (b.inner.owned + E).count p + b.inner.cow_shares.count p ≤ 255 := by
    rcases Decidable.em (p ∈ b.inner.cow_shares) with hmem | hmem
    · exact h.count p hmem
    · rw [Multiset.count_eq_zero.mpr hmem, add_zero]
      exact howned.count_le p
  have hf := (from_copy_on_write_meets h.tracked howned hcount).of_ok hok
  have hinto := from_copy_on_write_ok hok
  refine ⟨hinto.child_laid h.laid, hf.child_tracked h.tracked, ?_, fun va pte k hva hpte => ?_⟩
  · rw [hf.parent_owned']
    exact hf.owned
  · cases (hinto.child_unmapped h.laid (h.untouched va hva)).symm.trans hpte

theorem load_elf_fresh (h : b.Ready text E ph) (howned : Owned ph.allocator (b.inner.owned + E))
    {e : LoadedELF} {b' : Busybox} {ph' : Phys} (hok : load_elf text f b ph = .ok (e, b', ph')) :
    Fresh text (b'.inner.owned + E) e ph' := by
  unfold load_elf at hok
  split at hok
  · obtain ⟨⟨parent, child, ph₁⟩, hfork, hret⟩ := bind_eq_ok.mp hok
    cases hret
    have hg := h.forked howned hfork
    exact ⟨hg, hg.laid.stack_end, h.aux⟩
  · obtain ⟨⟨ms, ph₁⟩, hload, hret⟩ := bind_eq_ok.mp hok
    cases hret
    exact ⟨load_elf_grounded howned hload, rfl, f, rfl⟩

end Loaded

section Passes

variable {env : ExecEnv} {E : Multiset Nat} {s s' : ExecState} {f : AppFile}
  {args envs : List (List Char)}

namespace ExecState

/-- The stack pointer in the trap context. -/
def user_sp (s : ExecState) : Nat :=
  ((TrapContext.of_bytes (s.ph.object (s.trap_cx_ppn, 0) 560)).x 2).toNat

/-- The program finds these strings when it walks its stack. -/
def Finds (s : ExecState) (args envs : List (List UInt8)) : Prop :=
  ∃ u, walk (s.memory_set.view s.ph) USER_STACK_SIZE s.user_sp = some u ∧
    u.args.map Prod.snd = args ∧ u.envs.map Prod.snd = envs

theorem Finds.iff {args args' envs envs' : List (List UInt8)} (h : s.Finds args envs) :
    s.Finds args' envs' ↔ args = args' ∧ envs = envs' := by
  obtain ⟨u, hwalk, rfl, rfl⟩ := h
  constructor
  · rintro ⟨u', hwalk', rfl, rfl⟩
    cases hwalk.symm.trans hwalk'
    exact ⟨rfl, rfl⟩
  · rintro ⟨rfl, rfl⟩
    exact ⟨u, hwalk, rfl, rfl⟩

/-- The trackers of the caller, of the program in memory and of everybody else. -/
structure Wf (text : KernelImage) (E : Multiset Nat) (s : ExecState) : Prop where
  owned : Owned s.ph.allocator (s.busybox.inner.owned + (s.memory_set.owned + E))
  shm : ∀ area ∈ s.memory_set.shm_areas, area.frame_map = ∅
  busybox : s.busybox.Ready text (s.memory_set.owned + E) s.ph

end ExecState

/-- The bytes on the new stack. -/
def exec_len (args envs : List (List Char)) : Nat :=
  stacked_len (envs.map as_bytes) + stacked_len (args.map as_bytes) + 32 +
    8 * (args.length + envs.length) + 16 * 22

theorem ustack_len_auxs (f : AppFile) : ustack_len args envs f.auxs = exec_len args envs := rfl

theorem write_object (ph : Phys) (ppn : Nat) (data : List UInt8) :
    (ph.write ppn 0 data).object (ppn, 0) data.length = data := by
  refine List.ext_getElem (by rw [Phys.object, List.length_map, List.length_range]) fun i hi hi' => ?_
  simp only [Phys.object, List.getElem_map, List.getElem_range, Nat.zero_add]
  rw [Phys.write_bytes, if_pos ⟨rfl, Nat.zero_le i⟩, Nat.sub_zero, List.getElem?_eq_getElem hi']
  rfl

theorem user_sp_of_write (k : KernelEntry) (entry : BitVec 64) {sp : Nat} (hsp : sp < 2 ^ 64)
    (ph : Phys) (ppn : Nat) :
    ((TrapContext.of_bytes ((ph.write ppn 0
      (TrapContext.app_init_context k entry (BitVec.ofNat 64 sp)).bytes).object (ppn, 0) 560)).x
        2).toNat = sp := by
  generalize hcx : TrapContext.app_init_context k entry (BitVec.ofNat 64 sp) = cx
  have hx : cx.x 2 = BitVec.ofNat 64 sp := by
    rw [← hcx]
    exact TrapContext.set_x_x_self _ _ _
  have hobject := write_object ph ppn cx.bytes
  rw [cx.length_bytes] at hobject
  have hread := cx.of_bytes_bytes []
  rw [List.append_nil] at hread
  rw [hobject, hread, hx, BitVec.toNat_ofNat, Nat.mod_eq_of_lt hsp]

/-- The frame of the trap context is not behind a page of the stack. -/
theorem Written.write_trap_context {text : KernelImage} {ms₀ : MemorySet} {top sp : Nat}
    {image : List UInt8} {t : MemorySet × Phys} (h : Built text E ms₀ top sp image t)
    {pte : PageTableEntry} (hpte : ms₀.translate (floor TRAP_CONTEXT_BASE) = some pte)
    (data : List UInt8) : Holds (t.1.view (t.2.write pte.ppn 0 data)) sp image := by
  have hslot : (index (floor TRAP_CONTEXT_BASE), pte.ppn) ∈ t.1.slots := by
    refine (h.grounded.tracked.mapped _ pte (h.mapped _ pte hpte)).resolve_left ?_
    rintro (⟨hindex, _⟩ | ⟨hindex, _⟩)
    · exact absurd hindex (by decide)
    · exact absurd hindex (by decide)
  have hbottom := h.bottom
  have hfilled := h.filled_nil
  have htop := h.top_le
  refine Holds.congr h.high fun va hle hlt b hb => ?_
  have hva : InUserStack va := ⟨by omega, by omega⟩
  obtain ⟨pte', hpte', hbyte⟩ := view_eq_some.mp hb
  refine view_eq_some.mpr ⟨pte', hpte', ?_⟩
  rw [Phys.write_bytes_outside, hbyte]
  rintro ⟨heq, _⟩
  rw [← heq] at hslot
  have hindex := h.grounded.own va pte' _ hva hpte' hslot
  have hlow := hva.index_lt
  rw [← hindex] at hlow
  exact absurd hlow (by decide)

theorem exec_finds (hs : s.Wf env.text E)
    (hfit : user_stack_bottom + exec_len args envs ≤ USER_STACK_BASE)
    (hzero : ∀ str ∈ args ++ envs, 0 ∉ as_bytes str) (hok : exec env s f args envs = .ok s') :
    s'.Finds (args.map as_bytes) (envs.map as_bytes) := by
  obtain ⟨⟨e, b, ph₁⟩, hload, hok⟩ := bind_eq_ok.mp hok
  have hfresh := load_elf_fresh hs.busybox hs.owned hload
  obtain ⟨f', hauxs⟩ := hfresh.aux
  have hg := hfresh.grounded
  dsimp only at hok
  split at hok
  · split at hok
    · cases hok
    · rename_i pte hpte
      obtain ⟨ph₂, hdrop, hok⟩ := bind_eq_ok.mp hok
      obtain ⟨⟨⟨sp, _, _⟩, t⟩, hinit, hret⟩ := bind_eq_ok.mp hok
      cases hret
      have howned : Owned ph₁.allocator
          (s.memory_set.owned + (e.memory_set.owned + (b.inner.owned + E))) := by
        have hold := hg.owned
        rwa [← add_assoc b.inner.owned, add_comm b.inner.owned, add_assoc s.memory_set.owned,
          add_left_comm] at hold
      have hmoves := (MemorySet.drop_spares hs.shm howned).of_ok hdrop
      have hground : Grounded env.text (b.inner.owned + E) e.memory_set ph₂ :=
        ⟨hg.laid, hg.tracked, by simpa using hmoves.owned, hg.own⟩
      rw [hfresh.top, hauxs] at hinit
      rw [← ustack_len_auxs f'] at hfit
      obtain ⟨hsp, hbuilt⟩ := (init_ustack_built hground le_rfl hfit).of_ok hinit
      have hwalk (data : List UInt8) := (walk_of_built hsp hbuilt.bottom le_rfl
        (hbuilt.write_trap_context hpte data) hzero f'.key_ne_zero).1
      have hlt : sp < 2 ^ 64 := by
        have hbase : USER_STACK_BASE < 2 ^ 64 := by decide
        dsimp only at hsp
        omega
      refine ⟨startup USER_STACK_BASE args envs f'.auxs, ?_, map_snd_stacked _ _,
        map_snd_stacked _ _⟩
      rw [ExecState.user_sp, user_sp_of_write env.kernel _ hlt]
      exact hwalk _
  · cases hok

theorem fixed_envs_no_zero : ∀ str ∈ fixed_envs, 0 ∉ as_bytes str := by decide

/-- The strings on the new stack are the encodings of those that the kernel made. -/
theorem sys_exec_finds {path argv envp : Nat} {args envs : List (List UInt8)} (hs : s.Wf env.text E)
    (hscript : ∀ p, translated_str (s.memory_set, s.ph) path = .ok p → is_script p = false)
    (hargs : Passed s.memory_set s.ph argv args) (henvs : Passed s.memory_set s.ph envp envs)
    (hfit : user_stack_bottom + exec_len (args.map latin) (envs.map latin ++ fixed_envs) ≤
      USER_STACK_BASE)
    (hok : sys_exec env s path argv envp = .ok (.ok 0, s')) :
    s'.Finds ((args.map latin).map as_bytes) ((envs.map latin ++ fixed_envs).map as_bytes) := by
  obtain ⟨p, hpath, hok⟩ := bind_eq_ok.mp hok
  rw [hscript p hpath, hargs.read_strs] at hok
  simp only [ok_bind, henvs.read_strs, Bool.false_eq_true, if_false, List.nil_append] at hok
  split at hok
  · cases hok
  · split at hok
    · cases hok
    · obtain ⟨s₁, hexec, hret⟩ := bind_eq_ok.mp hok
      cases hret
      refine exec_finds hs hfit ?_ hexec
      have hlatin {strs : List (List UInt8)} (hno : ∀ l ∈ strs, 0 ∉ l) :
          ∀ str ∈ strs.map latin, 0 ∉ as_bytes str := by
        intro str hstr
        obtain ⟨l, hl, rfl⟩ := List.mem_map.mp hstr
        exact zero_notMem_as_bytes_latin (hno l hl)
      exact List.forall_mem_append.mpr ⟨hlatin hargs.no_zero,
        List.forall_mem_append.mpr ⟨hlatin henvs.no_zero, fixed_envs_no_zero⟩⟩

/-- The strings arrive unchanged exactly when every byte is ASCII. -/
theorem sys_exec_passes_iff {path argv envp : Nat} {args envs : List (List UInt8)}
    (hs : s.Wf env.text E)
    (hscript : ∀ p, translated_str (s.memory_set, s.ph) path = .ok p → is_script p = false)
    (hargs : Passed s.memory_set s.ph argv args) (henvs : Passed s.memory_set s.ph envp envs)
    (hfit : user_stack_bottom + exec_len (args.map latin) (envs.map latin ++ fixed_envs) ≤
      USER_STACK_BASE)
    (hok : sys_exec env s path argv envp = .ok (.ok 0, s')) :
    s'.Finds args (envs ++ fixed_envs.map as_bytes) ↔ ∀ l ∈ args ++ envs, ∀ b ∈ l, b < 128 := by
  rw [(sys_exec_finds hs hscript hargs henvs hfit hok).iff, List.map_append, List.map_map,
    List.map_map, List.append_left_inj, List.forall_mem_append]
  exact and_congr (map_as_bytes_latin_iff args) (map_as_bytes_latin_iff envs)

/-- A program whose segments are below the stack is loaded without a page on the stack. -/
theorem stack_untouched {text : KernelImage} {x : Executable} {ms : MemorySet} {ph ph' : Phys}
    (h : Owned ph.allocator E) (hl : ∀ g ∈ x.segments, g.Loadable)
    (hbelow : ∀ g ∈ x.segments, g.stop ≤ user_stack_bottom)
    (hok : MemorySet.load_elf text x.elf ph = .ok (ms, ph')) {va : Nat} (hva : InUserStack va) :
    ms.translate (floor va) = none := by
  have hfree := (x.load_elf_unmapped text h hl).of_ok hok
  have hlow := hva.index_lt
  refine hfree (floor va) (hlow.trans (by decide)) fun g hg w hw heq => ?_
  obtain ⟨va', _, hlt, rfl⟩ := hw
  have hstop := hbelow g hg
  have hbottom := hva.1
  have haligned : user_stack_bottom % PAGE_SIZE = 0 := by decide
  have hlt' : va < 2 ^ 38 := hva.2.trans (by decide)
  simp only [index, floor, PAGE_SIZE] at heq haligned
  omega

/-- A small program. -/
def sample_app : AppFile := ⟨['a'], 100, Executable.two_segments.elf, ⟨64, 56, 2, 0x10ff0, 0⟩⟩

def sample_env : ExecEnv := ⟨Machine.image, ⟨0, 0, 0, 0, 0⟩, fun _ => .ok sample_app⟩

/-- Two address spaces; in the second one stand an array with one pointer, a string of the byte
`c`, and a path. -/
def sample_caller (c : UInt8) (ph : Phys) : Except Panic ExecState := do
  let (b, ph) ← MemorySet.load_elf Machine.image Executable.two_segments.elf ph
  let (ms, ph) ← MemorySet.load_elf Machine.image Executable.two_segments.elf ph
  match ms.translate 0x14 with
  | none => .error .outOfBounds
  | some pte =>
    let ph := ph.write pte.ppn 0x100 (bytes 8 0x14110 ++ (bytes 8 0 ++ [c, 0, 0x61, 0]))
    return ⟨true, ms, 0, ⟨b, 0, sample_app.auxs⟩, ph⟩

/-- The program has few pages to share. -/
structure Small (ph : Phys) : Prop where
  card : Meets (MemorySet.load_elf Machine.image Executable.two_segments.elf ph) (fun _ => True)
    fun r => r.1.cow_shares.card < 255

theorem owned_boot : Owned (Machine.boot Machine.image 64).ph.allocator 0 :=
  (exact_init 16 64).congr fun q => Multiset.count_zero q

theorem small_boot : Small (Machine.boot Machine.image 64).ph := by
  constructor
  rw [MemorySet.cow_shares_eq]
  decide +kernel

theorem sample_caller_wf {c : UInt8} {ph : Phys} (h : Owned ph.allocator 0) (hsmall : Small ph)
    (hok : sample_caller c ph = .ok s) : s.Wf Machine.image 0 := by
  obtain ⟨⟨b, ph₁⟩, hb, hok⟩ := bind_eq_ok.mp hok
  obtain ⟨⟨ms, ph₂⟩, hms, hok⟩ := bind_eq_ok.mp hok
  have hlb := ((load_elf_meets Machine.image _ h).of_ok hb).1
  have hcard := hsmall.card.of_ok hb
  have hlms := ((load_elf_meets Machine.image _ hlb.owned).of_ok hms).1
  dsimp only at hok
  split at hok
  · cases hok
  · cases hok
    refine ⟨?_, fun area harea => ?_, ⟨load_elf_laid hb, hlb.tracked, fun va hva => ?_,
      fun p _ => ?_, sample_app, rfl⟩⟩
    · have howned := hlms.owned
      rw [add_left_comm] at howned
      exact howned
    · rw [hlms.no_shm] at harea
      exact absurd harea List.not_mem_nil
    · exact stack_untouched h Executable.two_segments_loadable (by decide) hb hva
    · have hone := hlb.calm p
      have hone' := hlms.calm p
      have hle := Multiset.count_le_card p b.cow_shares
      rw [Multiset.count_zero] at hone
      rw [add_left_comm]
      dsimp only at hcard hone hone' hle ⊢
      omega

/-- The call of the caller; the middle part is the path. -/
def sample_call (c : UInt8) (ph : Phys) :
    Except Panic (ExecState × List Char × Except Errno Nat × ExecState) := do
  let s ← sample_caller c ph
  let path ← translated_str (s.memory_set, s.ph) 0x14112
  let r ← sys_exec sample_env s 0x14112 0x14100 0
  return (s, path, r)

/-- The call is one that the results are about. -/
structure Sampled (c : UInt8) (s s' : ExecState) : Prop where
  wf : s.Wf sample_env.text 0
  not_script : ∀ p, translated_str (s.memory_set, s.ph) 0x14112 = .ok p → is_script p = false
  args : Passed s.memory_set s.ph 0x14100 [[c]]
  envs : Passed s.memory_set s.ph 0 []
  ok : sys_exec sample_env s 0x14112 0x14100 0 = .ok (.ok 0, s')

theorem Sampled.of_call {c : UInt8} (hc : c ≠ 0) {ph : Phys} (h : Owned ph.allocator 0)
    (hsmall : Small ph)
    (hcall : ∃ r, sample_call c ph = .ok r ∧ (r.2.1 = ['a'] ∧ r.2.2.1 = .ok 0) ∧
      Holds (r.1.memory_set.view r.1.ph) 0x14100 (word_row [0x14110] ++ bytes 8 0) ∧
      Holds (r.1.memory_set.view r.1.ph) 0x14110 ([c] ++ [0])) :
    ∃ s s', Sampled c s s' := by
  obtain ⟨⟨s, p, res, s'⟩, hok, ⟨hp, hres⟩, harray, hstring⟩ := hcall
  obtain ⟨t, hcaller, hok⟩ := bind_eq_ok.mp hok
  obtain ⟨path, hpath, hok⟩ := bind_eq_ok.mp hok
  obtain ⟨r, hexec, hret⟩ := bind_eq_ok.mp hok
  cases hret
  dsimp only at hp hres harray hstring
  subst hp hres
  have hat : StringAt s.memory_set s.ph 0x14110 [c] :=
    ⟨by decide, Nat.lt_of_lt_of_le (by decide : 0x14110 + 1 < 2 ^ 18) (by decide),
      by simpa using hc.symm, hstring⟩
  refine ⟨s, s', sample_caller_wf h hsmall hcaller, fun p hp => ?_, ?_, ?_, hexec⟩
  · cases hpath.symm.trans hp
    rfl
  · rw [Passed, if_neg (by decide), List.length_singleton]
    exact ⟨by decide, [0x14110], harray, .cons hat .nil⟩
  · rw [Passed, if_pos rfl]

theorem sampled (c : UInt8) (hc : c = 0x41 ∨ c = 0xc3) : ∃ s s', Sampled c s s' := by
  rcases hc with rfl | rfl
  · exact Sampled.of_call (by decide) owned_boot small_boot (Meets.exists_ok (by decide +kernel))
  · exact Sampled.of_call (by decide) owned_boot small_boot (Meets.exists_ok (by decide +kernel))

theorem sys_exec_passes_ascii : ∃ s s', Sampled 0x41 s s' ∧
    s'.Finds [[0x41]] (fixed_envs.map as_bytes) := by
  obtain ⟨s, s', h⟩ := sampled 0x41 (Or.inl rfl)
  have hiff := sys_exec_passes_iff h.wf h.not_script h.args h.envs (by decide) h.ok
  exact ⟨s, s', h, hiff.mpr (by simp)⟩

/-- A byte that is not ASCII arrives as two. -/
theorem sys_exec_mangles : ∃ s s', Sampled 0xc3 s s' ∧
    user_stack_bottom + exec_len [latin [0xc3]] fixed_envs ≤ USER_STACK_BASE ∧
    s'.Finds [[0xc3, 0x83]] (fixed_envs.map as_bytes) ∧
    ¬ s'.Finds [[0xc3]] (fixed_envs.map as_bytes) := by
  obtain ⟨s, s', h⟩ := sampled 0xc3 (Or.inr rfl)
  have hfinds := sys_exec_finds h.wf h.not_script h.args h.envs (by decide) h.ok
  exact ⟨s, s', h, by decide, hfinds, fun hsame => absurd (hfinds.iff.mp hsame).1 (by decide)⟩

end Passes

end MyGOS.Task
