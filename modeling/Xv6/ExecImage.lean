import Xv6.Exec
import Xv6.ExecPair

/-! The image `exec` builds, as a function of the file and the argument strings,
and that the page table under construction holds exactly this image. -/
namespace Xv6

open Function

def elfHdr (file : List UInt8) : ElfHdr :=
  ElfHdr.ofBytes (bytesOf (readiBytes file 0 ELFHDR_SIZE))

/-- The program header that the loop reads at `off`. -/
def phdrAt (file : List UInt8) (off : Nat) : ProgHdr :=
  ProgHdr.ofBytes (bytesOf (readiBytes file off PROGHDR_SIZE))

def UserMem.loadsegLoop (va : Nat) (file : List UInt8) (offset sz : Nat) :
    Nat → Nat → UserMem → UserMem
  | 0, _, m => m
  | k+1, i, m => loadsegLoop va file offset sz k (i+PGSIZE)
      (m.write ((va+i)/PGSIZE) 0 (readiBytes file ((offset+i) % 2^32) (min (sz-i) PGSIZE)))

/-- An image with one more segment. -/
def UserMem.loadSegment (file : List UInt8) (ph : ProgHdr) (im : UserMem × Nat) : UserMem × Nat :=
  let sz := max im.2 (ph.vaddr + ph.memsz)
  (loadsegLoop ph.vaddr file (ph.off % 2^32) (ph.filesz % 2^32)
    ((ph.filesz % 2^32 + PGSIZE - 1)/PGSIZE) 0 (im.1.resize (npages im.2) (npages sz)), sz)

def UserMem.execLoop (file : List UInt8) : Nat → Nat → UserMem × Nat → UserMem × Nat
  | 0, _, im => im
  | i+1, off, im =>
    if (phdrAt file off).type ≠ ELF_PROG_LOAD then
      execLoop file i ((off+PROGHDR_SIZE) % 2^32) im
    else
      execLoop file i ((off+PROGHDR_SIZE) % 2^32) (loadSegment file (phdrAt file off) im)

/-- The addresses of the strings that are pushed at `sp`. -/
def argPtrs : Nat → List (List UInt8) → List Nat
  | _, [] => []
  | sp, arg :: args => pushSp sp arg.length :: argPtrs (pushSp sp arg.length) args

def argSp (sp : Nat) (args : List (List UInt8)) : Nat := (argPtrs sp args).getLastD sp

def stackSp (sz : Nat) (args : List (List UInt8)) : Nat :=
  pushSp (argSp sz args) ((args.length+1)*8)

def UserMem.pushArgs : List (List UInt8) → Nat → UserMem → UserMem
  | [], _, m => m
  | arg :: args, sp, m =>
    let sp := pushSp sp arg.length
    pushArgs args sp (m.copyout sp arg).2

/-- The strings and the array of their addresses, below `sz`. -/
def UserMem.pushStack (args : List (List UInt8)) (sz : Nat) (m : UserMem) : UserMem :=
  ((UserMem.pushArgs args sz m).copyout (stackSp sz args)
    ((argPtrs sz args ++ [0]).flatMap wordBytes)).2

/-- An image with its stack: a page that guards it, and the page with the arguments. -/
def UserMem.execStack (args : List (List UInt8)) (im : UserMem × Nat) : UserMem × Nat :=
  let sz := PGROUNDUP im.2 + 2*PGSIZE
  (UserMem.pushStack args sz ((im.1.resize (npages im.2) (npages sz)).guard (npages im.2)), sz)

def loadedImage (file : List UInt8) : UserMem × Nat :=
  UserMem.execLoop file (elfHdr file).phnum ((elfHdr file).phoff % 2^32) (UserMem.empty, 0)

def execImage (file : List UInt8) (args : List (List UInt8)) : UserMem × Nat :=
  UserMem.execStack args (loadedImage file)

theorem execImage_eq {file : List UInt8} (args : List (List UInt8))
    (h : (loadedImage file).2 < 2^32) : execImage file args =
      (UserMem.pushStack args ((npages (loadedImage file).2 + 2)*PGSIZE)
        (((loadedImage file).1.resize (npages (loadedImage file).2)
          (npages (loadedImage file).2 + 2)).guard (npages (loadedImage file).2)),
        (npages (loadedImage file).2 + 2)*PGSIZE) := by
  have htop : PGROUNDUP (loadedImage file).2 + 2*PGSIZE =
      (npages (loadedImage file).2 + 2)*PGSIZE := by
    rw [PGROUNDUP_eq (by omega), ← Nat.add_mul]
  rw [execImage, UserMem.execStack, htop, npages_mul]

def argStrings (s : Phys) (argv : List Nat) : List (List UInt8) :=
  argv.map fun a => pageString (s.mem a)

theorem argStrings_cons (s : Phys) (a : Nat) (argv : List Nat) :
    argStrings s (a :: argv) = pageString (s.mem a) :: argStrings s argv := rfl

/-- The piece of a segment for its page `i` is complete. -/
def PieceRead (file : List UInt8) (offset sz i : Nat) : Prop :=
  (readiBytes file ((offset + i*PGSIZE) % 2^32) (min (sz - i*PGSIZE) PGSIZE)).length =
    min (sz - i*PGSIZE) PGSIZE

def SegmentRead (file : List UInt8) (offset sz : Nat) : Prop :=
  ∀ i, i*PGSIZE < sz → PieceRead file offset sz i

/-- What `exec` has checked about a loadable segment when it goes on to the next header. -/
structure SegmentOk (file : List UInt8) (ph : ProgHdr) : Prop where
  filesz : ph.filesz ≤ ph.memsz
  fits : ph.vaddr + ph.memsz < 2^32
  aligned : ph.vaddr % PGSIZE = 0
  read : SegmentRead file (ph.off % 2^32) (ph.filesz % 2^32)

/-- The program headers from `off` on, as the loop reads and accepts them. -/
def HeadersOk (file : List UInt8) : Nat → Nat → Prop
  | 0, _ => True
  | i+1, off => (readiBytes file off PROGHDR_SIZE).length = PROGHDR_SIZE ∧
    ((phdrAt file off).type = ELF_PROG_LOAD → SegmentOk file (phdrAt file off)) ∧
    HeadersOk file i ((off+PROGHDR_SIZE) % 2^32)

/-- No segment without memory, which would look like a failure of `uvmalloc`. -/
def SegmentsPos (file : List UInt8) : Nat → Nat → Prop
  | 0, _ => True
  | i+1, off => ((phdrAt file off).type = ELF_PROG_LOAD → 0 < (phdrAt file off).memsz) ∧
    SegmentsPos file i ((off+PROGHDR_SIZE) % 2^32)

def execSp (file : List UInt8) (args : List (List UInt8)) : Nat :=
  stackSp (execImage file args).2 args

/-- The strings and the array fit on the last page of an image of `sz` bytes. -/
structure StackOk (sz : Nat) (args : List (List UInt8)) : Prop where
  count : args.length ≤ MAXARG
  ptrs : ∀ x ∈ argPtrs sz args, sz - PGSIZE ≤ x
  sp : sz - PGSIZE ≤ stackSp sz args
  size : sz < MAXVA

/-- What `exec` has checked when it commits. -/
structure ExecOk (file : List UInt8) (args : List (List UInt8)) : Prop extends
    StackOk (execImage file args).2 args where
  headers : HeadersOk file (elfHdr file).phnum ((elfHdr file).phoff % 2^32)

/-- What `exec` needs beside memory. -/
structure ExecAccepts (file : List UInt8) (args : List (List UInt8)) : Prop extends
    ExecOk file args where
  header : (readiBytes file 0 ELFHDR_SIZE).length = ELFHDR_SIZE
  magic : (elfHdr file).magic = ELF_MAGIC
  pos : SegmentsPos file (elfHdr file).phnum ((elfHdr file).phoff % 2^32)

theorem phdrAt_eq (file : List UInt8) (off : Nat) :
    ProgHdr.ofBytes (bytesOf (readiBytes file off PROGHDR_SIZE)) = phdrAt file off := rfl

theorem phdrAt_lt (file : List UInt8) (off : Nat) :
    (phdrAt file off).vaddr < 2^64 ∧ (phdrAt file off).memsz < 2^64 :=
  ⟨leGet_lt 8 _ _, leGet_lt 8 _ _⟩

theorem UserMem.execLoop_size (file : List UInt8) (i : Nat) : ∀ (off : Nat) (im : UserMem × Nat),
    im.2 ≤ (UserMem.execLoop file i off im).2 := by
  induction i with
  | zero => exact fun _ _ => le_rfl
  | succ i ih =>
    intro off im
    unfold UserMem.execLoop
    split_ifs
    · exact ih _ _
    · have hseg : im.2 ≤ (UserMem.loadSegment file (phdrAt file off) im).2 := le_max_left _ _
      exact hseg.trans (ih _ _)

theorem argSp_cons (sp : Nat) (arg : List UInt8) (args : List (List UInt8)) :
    argSp sp (arg :: args) = argSp (pushSp sp arg.length) args := by
  unfold argSp
  rw [argPtrs, List.getLastD_cons]

@[simp] theorem argPtrs_length (args : List (List UInt8)) : ∀ sp,
    (argPtrs sp args).length = args.length := by
  induction args with
  | nil => exact fun _ => rfl
  | cons arg args ih =>
    intro sp
    rw [argPtrs, List.length_cons, List.length_cons, ih]

theorem flatMap_wordBytes_length (l : List Nat) : (l.flatMap wordBytes).length = 8*l.length := by
  induction l with
  | nil => rfl
  | cons x l ih =>
    rw [List.flatMap_cons, List.length_append, ih, List.length_cons]
    simp [wordBytes]
    omega

theorem UserMem.pushArgs_user (args : List (List UInt8)) : ∀ (sp : Nat) (m : UserMem),
    (UserMem.pushArgs args sp m).user = m.user := by
  induction args with
  | nil => exact fun _ _ => rfl
  | cons arg args ih =>
    intro sp m
    obtain ⟨u, -, hrun⟩ := copyoutLoop_upto arg.length (pushSp sp arg.length) arg m le_rfl
    rw [UserMem.pushArgs, ih, UserMem.copyout, hrun]
    rfl

def UserMem.AllUser (m : UserMem) (n : Nat) : Prop := ∀ v < n, m.user v = true

theorem UserMem.AllUser.resize {m : UserMem} {n : Nat} (h : m.AllUser n) (n' : Nat) :
    (m.resize n n').AllUser n' := by
  intro v hv
  simp only [UserMem.resize, decide_eq_true hv, Bool.true_and, Bool.or_eq_true, decide_eq_true_eq]
  rcases Nat.lt_or_ge v n with hlt | hge
  · exact Or.inr (h v hlt)
  · exact Or.inl hge

theorem pushSp_eq {sp n : Nat} (hn : n ≤ sp) (hsp : sp < 2^64) : pushSp sp n = (sp-n)/16*16 := by
  unfold pushSp
  rw [show sp + 2^64 - n = (sp-n) + 2^64 by omega, Nat.add_mod_right, Nat.mod_eq_of_lt (by omega)]

/-- The stack of an image of `v` pages is page `v+1`. -/
theorem UserMem.copyout_stack {m : UserMem} {t sp : Nat} {src : List UInt8}
    (hu : m.user t = true) (ht : t < VPAGES) (hlow : t*PGSIZE ≤ sp) (hhigh : sp + src.length ≤ (t+1)*PGSIZE) :
    m.copyout sp src = (0, m.put sp src) := by
  apply copyout_mapped
  intro x hx
  have hpage : (sp+x)/PGSIZE = t := Nat.div_eq_of_lt_le (by omega) (by omega)
  exact ⟨page_lt_iff.mp (by rw [hpage]; exact ht), by rw [hpage]; exact hu⟩

variable [Layout]

section Load
variable {old new n m tf : Nat} {f : Nat → Pte} {F U : List Nat} {file : List UInt8}

theorem loadsegLoop_spec {g : Nat → Pte} {va : Nat} (file : List UInt8) (offset sz : Nat)
    (hal : va % PGSIZE = 0) (hw : Writable g m) (k : Nat) : ∀ (s : Phys) (j : Nat),
    Pair s old new f g F U n m tf → (userMem s g m).AllUser m → va/PGSIZE + j + k ≤ m →
    Runs (loadsegLoop new va file offset sz k (j*PGSIZE)) s fun r s' => ∃ mem,
      Built s old new f F U n tf f g m mem s' ∧ mem.AllUser m ∧ s'.freelist = s.freelist ∧
      (r = 0 ∧ mem = UserMem.loadsegLoop va file offset sz k (j*PGSIZE) (userMem s g m) ∧
          (∀ i, j ≤ i → i < j+k → PieceRead file offset sz i) ∨
        r = -1 ∧ ∃ i, i < j+k ∧ ¬ PieceRead file offset sz i) := by
  induction k with
  | zero =>
    intro s j h hu _
    exact (runs_pure _).mpr ⟨_, h.built_refl hw, hu, rfl, Or.inl ⟨rfl, rfl, fun i _ _ => by omega⟩⟩
  | succ k ih =>
    intro s j h hu hm
    have hsize := h.right.map.size
    have hTV : TFPAGE < VPAGES := by decide
    have hpg : (va + j*PGSIZE)/PGSIZE = va/PGSIZE + j := Nat.add_mul_div_right _ _ (by decide)
    have hround : PGROUNDDOWN (va + j*PGSIZE) = va + j*PGSIZE := by
      have h0 : (va + j*PGSIZE) % PGSIZE = 0 := by rw [Nat.add_mul_mod_self_right, hal]
      have := Nat.div_add_mod' (va + j*PGSIZE) PGSIZE
      unfold PGROUNDDOWN
      omega
    have hva : va + j*PGSIZE < MAXVA := by
      rw [← hround]
      exact page_lt_MAXVA (by rw [hpg]; omega)
    have hword : (va + j*PGSIZE) % 2^64 = va + j*PGSIZE :=
      Nat.mod_eq_of_lt (hva.trans (by decide))
    unfold loadsegLoop UserMem.loadsegLoop
    rw [hword, runs_bind]
    have hwalk := h.right.walkaddr (va + j*PGSIZE)
    rw [hround, hpg] at hwalk
    refine hwalk.imp ?_
    rintro pa s1 ⟨rfl, hpa⟩
    rw [if_pos ⟨hva, hu _ (by omega)⟩] at hpa
    obtain ⟨hvm, rfl, hne⟩ := hpa
    simp only [runs_bind, runs_panicIf, runs_modify]
    refine ⟨hne, ?_⟩
    have hb := h.write_page hw hvm 0
      (readiBytes file ((offset + j*PGSIZE) % 2^32) (min (sz - j*PGSIZE) PGSIZE))
    rw [hpg, runs_ite]
    constructor
    · intro hshort
      exact (runs_pure _).mpr ⟨_, hb, hu, rfl, Or.inr ⟨rfl, j, by omega, hshort⟩⟩
    · intro hfull
      rw [← Nat.succ_mul]
      refine (ih _ (j+1) hb.pair (by rw [hb.mem]; exact hu) (by omega)).imp ?_
      rintro r s' ⟨mem, hb', hu', hfree, hr⟩
      rw [hb.mem] at hr
      refine ⟨mem, hb.trans hb', hu', hfree, ?_⟩
      rcases hr with ⟨hr, hmem, hread⟩ | ⟨hr, i, hi, hno⟩
      · refine Or.inl ⟨hr, hmem, fun i h1 h2 => ?_⟩
        rcases Nat.eq_or_lt_of_le h1 with rfl | hlt
        · exact not_not.mp hfull
        · exact hread i hlt (by omega)
      · exact Or.inr ⟨hr, i, by omega, hno⟩

omit [Layout] in
/-- A segment that ends inside the image has all its pages there. -/
theorem segment_pages {va len sz : Nat} (hal : va % PGSIZE = 0) (h : va + len ≤ sz) :
    va/PGSIZE + (len + PGSIZE - 1)/PGSIZE ≤ npages sz := by
  have hp : PGSIZE = 4096 := rfl
  unfold npages
  rw [hp] at hal ⊢
  omega

theorem loadseg_spec {g : Nat → Pte} {s : Phys} {va offset len sz : Nat} (hal : va % PGSIZE = 0)
    (hw : Writable g (npages sz)) (h : Pair s old new f g F U n (npages sz) tf)
    (hu : (userMem s g (npages sz)).AllUser (npages sz)) (hlen : va + len ≤ sz) :
    Runs (loadseg new va file offset len) s fun r s' => ∃ mem,
      Built s old new f F U n tf f g (npages sz) mem s' ∧ mem.AllUser (npages sz) ∧
      s'.freelist = s.freelist ∧
      (r = 0 ∧ mem = UserMem.loadsegLoop va file offset len ((len + PGSIZE - 1)/PGSIZE) 0
        (userMem s g (npages sz)) ∧ SegmentRead file offset len ∨
        r = -1 ∧ ¬ SegmentRead file offset len) := by
  unfold loadseg
  rw [runs_bind, runs_panicIf]
  refine ⟨fun hc => hc hal, ?_⟩
  have hpages := segment_pages hal hlen
  have hl := loadsegLoop_spec file offset len hal hw
    ((len + PGSIZE - 1)/PGSIZE) s 0 h hu (by omega)
  have hin (i : Nat) : i < 0 + (len + PGSIZE - 1)/PGSIZE ↔ i*PGSIZE < len := by
    have hp : PGSIZE = 4096 := rfl
    rw [hp]
    omega
  rw [Nat.zero_mul] at hl
  refine hl.imp ?_
  rintro r s' ⟨mem, hb, hu', hfree, hr⟩
  refine ⟨mem, hb, hu', hfree, ?_⟩
  rcases hr with ⟨hr, hmem, hread⟩ | ⟨hr, i, hi, hno⟩
  · exact Or.inl ⟨hr, hmem, fun i hi => hread i (Nat.zero_le i) ((hin i).mpr hi)⟩
  · exact Or.inr ⟨hr, fun hall => hno (hall i ((hin i).mp hi))⟩

/-- What is left of the free list when the image has grown from `sz` to `sz'` bytes. -/
def Costs (s : Phys) (sz sz' : Nat) (s' : Phys) : Prop :=
  s.freelist.length ≤ s'.freelist.length + 3*(npages sz' - npages sz)

/-- The loop over the program headers for one loadable segment. -/
def execSegment (pagetable : Nat) (file : List UInt8) (ph : ProgHdr) (sz : Nat) :
    Prog Phys (Bool × Nat) := do
  if ph.memsz < ph.filesz then pure (false, sz) else
  if (ph.vaddr + ph.memsz) % 2^64 < ph.vaddr then pure (false, sz) else
  let sz1 ← uvmalloc pagetable sz ((ph.vaddr + ph.memsz) % 2^64)
  if sz1 = 0 then pure (false, sz) else
  if ph.vaddr % PGSIZE ≠ 0 then pure (false, sz1) else
  let r ← loadseg pagetable ph.vaddr file (ph.off % 2^32) (ph.filesz % 2^32)
  if r < 0 then pure (false, sz1) else pure (true, sz1)

theorem runs_execLoop {i off sz : Nat} {s : Phys} {Q : Bool × Nat → Phys → Prop}
    (hdata : (readiBytes file off PROGHDR_SIZE).length = PROGHDR_SIZE)
    (htype : (phdrAt file off).type = ELF_PROG_LOAD)
    (h : Runs (execSegment new file (phdrAt file off) sz) s fun r s' =>
      if r.1 = true then Runs (execLoop new file i ((off+PROGHDR_SIZE) % 2^32) r.2) s' Q else Q r s') :
    Runs (execLoop new file (i+1) off sz) s Q := by
  unfold execLoop
  dsimp only
  rw [if_neg (not_not.mpr hdata), phdrAt_eq, if_neg (not_not.mpr htype)]
  unfold execSegment at h
  simp only [runs_ite, runs_bind, runs_pure, if_true, Bool.false_eq_true, if_false] at h ⊢
  exact h

/-- How a segment is loaded: it is in the image, or its header is not right, or there was no
memory. -/
theorem execSegment_spec {s : Phys} {g : Nat → Pte} {sz : Nat} {ph : ProgHdr}
    (h : Pair s old new f g F U n (npages sz) tf) (hw : Writable g (npages sz))
    (hu : (userMem s g (npages sz)).AllUser (npages sz)) (hv : ph.vaddr < 2^64)
    (hms : ph.memsz < 2^64) :
    Runs (execSegment new file ph sz) s fun r s' => ∃ g' mem,
      Built s old new f F U n tf f g' (npages r.2) mem s' ∧ mem.AllUser (npages r.2) ∧
      (r.1 = true ∧ (mem, r.2) = UserMem.loadSegment file ph (userMem s g (npages sz), sz) ∧
          SegmentOk file ph ∧ Costs s sz r.2 s' ∨
        r.1 = false ∧ (SegmentOk file ph → 0 < ph.memsz →
          s.freelist.length ≤ 3*(npages (ph.vaddr + ph.memsz) - npages sz))) := by
  unfold execSegment
  rw [runs_ite]
  refine ⟨fun hfile => (runs_pure _).mpr ⟨g, _, h.built_refl hw, hu, Or.inr ⟨rfl, fun hok => ?_⟩⟩,
    fun hfile => ?_⟩
  · have := hok.filesz
    omega
  rw [runs_ite]
  refine ⟨fun hwrap => (runs_pure _).mpr ⟨g, _, h.built_refl hw, hu, Or.inr ⟨rfl, fun hok => ?_⟩⟩,
    fun hwrap => ?_⟩
  · have := hok.fits
    rw [Nat.mod_eq_of_lt (by omega)] at hwrap
    omega
  have hsum : (ph.vaddr + ph.memsz) % 2^64 = ph.vaddr + ph.memsz := by
    apply Nat.mod_eq_of_lt
    by_contra hge
    apply hwrap
    rw [Nat.mod_eq_sub_mod (by omega), Nat.mod_eq_of_lt (by omega)]
    omega
  rw [hsum]
  refine (h.uvmalloc hw (ph.vaddr + ph.memsz)).bind ?_
  rintro r1 s1 ⟨g1, sz1, hb1, hr1⟩
  have hu1 := hu.resize (npages sz1)
  rw [runs_ite]
  constructor
  · intro hz
    have hsz : sz1 = sz := by
      rcases hr1 with ⟨hr, hs, -⟩ | ⟨-, hs, -⟩
      · omega
      · exact hs
    subst hsz
    refine (runs_pure _).mpr ⟨g1, _, hb1, hu1, Or.inr ⟨rfl, fun _ hpos => ?_⟩⟩
    rcases hr1 with ⟨hr, -, -⟩ | ⟨-, -, hfew⟩
    · omega
    · exact hfew
  intro hnz
  obtain ⟨hr, hs, hused⟩ := hr1.resolve_right fun hc => hnz hc.1
  rw [hr, ← hs, runs_ite]
  constructor
  · intro hodd
    exact (runs_pure _).mpr ⟨g1, _, hb1, hu1, Or.inr ⟨rfl, fun hok => absurd hok.aligned hodd⟩⟩
  intro hal
  have hal' : ph.vaddr % PGSIZE = 0 := not_not.mp hal
  have hlen : ph.vaddr + ph.filesz % 2^32 ≤ sz1 := by
    have := Nat.mod_le ph.filesz (2^32)
    omega
  refine (loadseg_spec hal' hb1.writable hb1.pair (by rw [hb1.mem]; exact hu1) hlen).bind ?_
  rintro r2 s2 ⟨mem2, hb2, hu2, hfree, hr2⟩
  have hb12 := hb1.trans hb2
  rw [runs_ite, runs_pure, runs_pure]
  constructor
  · intro hneg
    refine ⟨g1, _, hb12, hu2, Or.inr ⟨rfl, fun hok => ?_⟩⟩
    rcases hr2 with ⟨hr2, -⟩ | ⟨-, hno⟩
    · omega
    · exact absurd hok.read hno
  · intro hok
    obtain ⟨-, hmem2, hread⟩ := hr2.resolve_right fun hc => hok (by rw [hc.1]; decide)
    have hroom := hb1.pair.right.room
    have hlt : sz1 < 2^32 := size_lt (by omega)
    refine ⟨g1, _, hb12, hu2, Or.inl ⟨rfl, ?_, ⟨by omega, by omega, hal', hread⟩, ?_⟩⟩
    · rw [hmem2, hb1.mem, hs]
      rfl
    · have hle : npages (ph.vaddr + ph.memsz) ≤ npages sz1 := npages_mono (by omega)
      unfold Costs
      rw [hfree]
      dsimp only
      omega

/-- The loop over the program headers keeps an image of `sz` bytes. When it gets through, the
image is the one of the file; otherwise a header is not right, or there was no memory. -/
theorem execLoop_spec (i : Nat) : ∀ (s : Phys) (g : Nat → Pte) (off sz : Nat),
    Pair s old new f g F U n (npages sz) tf → Writable g (npages sz) →
    (userMem s g (npages sz)).AllUser (npages sz) →
    Runs (execLoop new file i off sz) s fun r s' => ∃ g' mem,
      Built s old new f F U n tf f g' (npages r.2) mem s' ∧ mem.AllUser (npages r.2) ∧
      (r.1 = true → (mem, r.2) = UserMem.execLoop file i off (userMem s g (npages sz), sz) ∧
        HeadersOk file i off ∧ Costs s sz r.2 s') ∧
      (r.1 = false → HeadersOk file i off → SegmentsPos file i off → s.freelist.length ≤
        3*(npages (UserMem.execLoop file i off (userMem s g (npages sz), sz)).2 - npages sz)) := by
  induction i with
  | zero =>
    intro s g off sz h hw hu
    exact (runs_pure _).mpr ⟨g, _, h.built_refl hw, hu,
      fun _ => ⟨rfl, trivial, Nat.le_add_right _ _⟩, fun hc => (nomatch hc)⟩
  | succ i ih =>
    intro s g off sz h hw hu
    by_cases hdata : (readiBytes file off PROGHDR_SIZE).length = PROGHDR_SIZE
    swap
    · unfold execLoop
      rw [if_pos hdata]
      exact (runs_pure _).mpr ⟨g, _, h.built_refl hw, hu, fun hc => (nomatch hc),
        fun _ hh => absurd hh.1 hdata⟩
    unfold UserMem.execLoop
    by_cases htype : (phdrAt file off).type = ELF_PROG_LOAD
    swap
    · rw [if_pos htype, execLoop]
      dsimp only
      rw [if_neg (not_not.mpr hdata), phdrAt_eq, if_pos htype]
      refine (ih s g _ sz h hw hu).imp ?_
      rintro r s' ⟨g', mem, hb, hu', hdone, hstuck⟩
      refine ⟨g', mem, hb, hu', fun hc => ?_, fun hc hh hpos => hstuck hc hh.2.2 hpos.2⟩
      obtain ⟨himage, hh, hcost⟩ := hdone hc
      exact ⟨himage, ⟨hdata, fun ht => absurd ht htype, hh⟩, hcost⟩
    rw [if_neg (not_not.mpr htype)]
    set im := UserMem.loadSegment file (phdrAt file off) (userMem s g (npages sz), sz) with him
    have hsize := npages_mono (UserMem.execLoop_size file i ((off+PROGHDR_SIZE) % 2^32) im)
    have hsz : npages sz ≤ npages im.2 := npages_mono (le_max_left _ _)
    apply runs_execLoop hdata htype
    refine (execSegment_spec h hw hu (phdrAt_lt file off).1 (phdrAt_lt file off).2).imp ?_
    rintro ⟨ok, sz1⟩ s1 ⟨g1, mem1, hb1, hu1, hr⟩
    dsimp only at hb1 hu1 hr ⊢
    rcases hr with ⟨rfl, hmem1, hseg, hcost1⟩ | ⟨rfl, hfew⟩
    · rw [if_pos rfl]
      rw [← him] at hmem1
      obtain ⟨rfl, rfl⟩ : mem1 = im.1 ∧ sz1 = im.2 := Prod.mk.inj hmem1
      refine (ih s1 g1 _ im.2 hb1.pair hb1.writable (by rw [hb1.mem]; exact hu1)).imp ?_
      rintro r s' ⟨g', mem, hb, hu', hdone, hstuck⟩
      rw [hb1.mem, show (im.1, im.2) = im from rfl] at hdone hstuck
      unfold Costs at hcost1 hdone ⊢
      refine ⟨g', mem, hb1.trans hb, hu', fun hc => ?_, fun hc hh hpos => ?_⟩
      · obtain ⟨himage, hh, hcost⟩ := hdone hc
        have hgrown : npages im.2 ≤ npages r.2 := by
          rw [(Prod.mk.inj himage).2]
          exact hsize
        exact ⟨himage, ⟨hdata, fun _ => hseg, hh⟩, by omega⟩
      · have := hstuck hc hh.2.2 hpos.2
        omega
    · rw [if_neg (by decide)]
      refine ⟨g1, mem1, hb1, hu1, fun hc => (nomatch hc), fun _ hh hpos => ?_⟩
      have hnew : npages ((phdrAt file off).vaddr + (phdrAt file off).memsz) ≤ npages im.2 :=
        npages_mono (le_max_right _ _)
      have := hfew (hh.2.1 htype) (hpos.1 htype)
      omega

end Load

section Stack
variable {old new n m tf mysz t : Nat} {g : Nat → Pte} {F U : List Nat}

theorem Built.argStrings {s0 s : Phys} {f0 f : Nat → Pte} {mem : UserMem} {argv : List Nat}
    (h : Built s0 old new f0 F U n tf f g m mem s) (hargv : argv ⊆ F) :
    Xv6.argStrings s argv = Xv6.argStrings s0 argv :=
  List.map_congr_left fun a ha => by rw [h.frame a (Kept.kernel (hargv ha))]

/-- The argument strings go to page `t` of the new image; the pages they are in stay as they
are. -/
theorem pushArgs_spec (hn : n = npages mysz) (hw : Writable g m) (ht : 1 ≤ t) (htm : t < m)
    (argv : List Nat) : ∀ (s : Phys) (f : Nat → Pte) (sp : Nat) (ustack : List Nat),
    Pair s old new f g F U n m tf → (userMem s g m).user t = true → t*PGSIZE ≤ sp →
    sp ≤ (t+1)*PGSIZE → ustack.length ≤ MAXARG → argv ⊆ F →
    Runs (pushArgs old mysz new (t*PGSIZE) argv sp ustack) s fun r s' => ∃ f' mem,
      Built s old new f F U n tf f' g m mem s' ∧
      (∀ sp' ustack', r = some (sp', ustack') → t*PGSIZE ≤ sp' ∧ sp' ≤ sp ∧
        sp' = argSp sp (argStrings s argv) ∧
        ustack' = ustack ++ argPtrs sp (argStrings s argv) ∧
        ustack'.length ≤ MAXARG ∧
        (∀ x ∈ argPtrs sp (argStrings s argv), t*PGSIZE ≤ x) ∧
        mem = UserMem.pushArgs (argStrings s argv) sp (userMem s g m)) ∧
      (r = none → ustack.length + argv.length ≤ MAXARG →
        ∃ x ∈ argPtrs sp (argStrings s argv), x < t*PGSIZE) := by
  induction argv with
  | nil =>
    intro s f sp ustack h _ h1 _ h3 _
    refine (runs_pure _).mpr ⟨f, _, h.built_refl hw, fun sp' ustack' he => ?_, fun hc => (nomatch hc)⟩
    injection he with he
    injection he with he1 he2
    subst he1; subst he2
    exact ⟨h1, le_rfl, rfl, (List.append_nil _).symm, h3, fun x hx => absurd hx List.not_mem_nil, rfl⟩
  | cons a argv ih =>
    intro s f sp ustack h hu h1 h2 h3 hsub
    have hsize := h.right.map.size
    have hT : TFPAGE < VPAGES := by decide
    have htop : (t+1)*PGSIZE < MAXVA := page_lt_MAXVA (by omega)
    have h64 : MAXVA < 2^64 := by decide
    have hlen : (pageString (s.mem a)).length ≤ PGSIZE := takeString_length _ _
    have hp : PGSIZE ≤ t*PGSIZE := Nat.le_mul_of_pos_left _ ht
    have hpush := pushSp_eq (n := (pageString (s.mem a)).length) (by omega : _ ≤ sp) (by omega)
    unfold pushArgs
    rw [argStrings_cons, argPtrs, argSp_cons, UserMem.pushArgs, runs_ite]
    refine ⟨fun hmax => (runs_pure _).mpr ⟨f, _, h.built_refl hw, fun _ _ hc => (nomatch hc),
      fun _ hle => ?_⟩, fun hmax => ?_⟩
    · rw [List.length_cons] at hle
      omega
    rw [runs_bind, runs_get, runs_ite]
    refine ⟨fun hlow => (runs_pure _).mpr ⟨f, _, h.built_refl hw, fun _ _ hc => (nomatch hc),
      fun _ _ => ⟨_, List.mem_cons_self, hlow⟩⟩, fun hroom => ?_⟩
    refine (h.copyout hn hw fun _ => by omega).bind ?_
    rintro r s1 ⟨f1, hr, hb1⟩
    rw [UserMem.copyout_stack hu (by omega) (by omega) (by omega)] at hr hb1 ⊢
    dsimp only at hr hb1 ⊢
    rw [hr, if_neg (by decide)]
    refine (ih s1 f1 _ _ hb1.pair (by rw [hb1.mem]; exact hu) (by omega) (by omega)
      (by simp; omega) fun b hb => hsub (List.mem_cons_of_mem _ hb)).imp ?_
    rintro r2 s2 ⟨f2, mem2, hb2, hsome, hnone⟩
    have hkeep := hb1.argStrings fun b hb => hsub (List.mem_cons_of_mem a hb)
    rw [hkeep, hb1.mem] at hsome
    rw [hkeep, List.length_append, List.length_singleton] at hnone
    refine ⟨f2, mem2, hb1.trans hb2, fun sp' ustack' he => ?_, fun he hle => ?_⟩
    · obtain ⟨h4, h5, h6, h7, h8, hptr, h9⟩ := hsome sp' ustack' he
      refine ⟨h4, by omega, h6, by rw [h7, List.append_assoc]; rfl, h8, ?_, h9⟩
      intro x hx
      rcases List.mem_cons.mp hx with rfl | hx
      · omega
      · exact hptr x hx
    · rw [List.length_cons] at hle
      obtain ⟨x, hx, hlow⟩ := hnone he (by omega)
      exact ⟨x, List.mem_cons_of_mem _ hx, hlow⟩

/-- `exec` from the strings on, in an image of `sz` bytes. -/
def execArgs (mypt mysz pagetable : Nat) (argv : List Nat) (sz : Nat) :
    Prog Phys (Option (Nat × Nat) × Nat) := do
  match ← pushArgs mypt mysz pagetable (sz-PGSIZE) argv sz [] with
  | none => pure (none, sz)
  | some (sp, ustack) =>
    let sp := pushSp sp ((ustack.length+1)*8)
    if sp < sz-PGSIZE then pure (none, sz) else
    let r ← copyout mypt mysz pagetable sp ((ustack ++ [0]).flatMap wordBytes)
    if r < 0 then pure (none, sz) else
    pure (some (sp, ustack.length), sz)

theorem execArgs_spec {s : Phys} {f : Nat → Pte} {argv : List Nat} (hn : n = npages mysz)
    (ht : 1 ≤ t) (hw : Writable g (t+1)) (h : Pair s old new f g F U n (t+1) tf)
    (hu : (userMem s g (t+1)).user t = true) (hargv : argv ⊆ F) :
    Runs (execArgs old mysz new argv ((t+1)*PGSIZE)) s fun r s' => r.2 = (t+1)*PGSIZE ∧ ∃ f' mem,
      Built s old new f F U n tf f' g (t+1) mem s' ∧
      (∀ sp argc, r.1 = some (sp, argc) →
        mem = UserMem.pushStack (argStrings s argv) ((t+1)*PGSIZE)
          (userMem s g (t+1)) ∧
        StackOk ((t+1)*PGSIZE) (argStrings s argv) ∧
        sp = stackSp ((t+1)*PGSIZE) (argStrings s argv) ∧
        argc = argv.length) ∧
      (r.1 = none → ¬ StackOk ((t+1)*PGSIZE) (argStrings s argv)) := by
  set args := argStrings s argv with hargs
  have hcount : args.length = argv.length := List.length_map ..
  have hsize := h.right.map.size
  have hT : TFPAGE < VPAGES := by decide
  have htop : (t+1)*PGSIZE < MAXVA := page_lt_MAXVA (by omega)
  have h64 : MAXVA < 2^64 := by decide
  have hMA : MAXARG = 32 := rfl
  have hp : PGSIZE = 4096 := rfl
  have hbase : (t+1)*PGSIZE - PGSIZE = t*PGSIZE := by
    rw [Nat.succ_mul]
    omega
  have hlow : PGSIZE ≤ t*PGSIZE := Nat.le_mul_of_pos_left _ ht
  unfold execArgs
  rw [hbase]
  refine (pushArgs_spec hn hw ht (Nat.lt_succ_self t) argv s f _ [] h hu (by omega) le_rfl
    (Nat.zero_le _) hargv).bind ?_
  rintro r s1 ⟨f1, mem1, hb1, hsome, hnone⟩
  rw [← hargs] at hsome hnone
  cases r with
  | none =>
    refine (runs_pure _).mpr ⟨rfl, f1, mem1, hb1, fun _ _ hc => (nomatch hc), fun _ hok => ?_⟩
    obtain ⟨x, hx, hlt⟩ := hnone rfl (by
      have := hok.count
      rw [List.length_nil]
      omega)
    have := hok.ptrs x hx
    omega
  | some r =>
    obtain ⟨sp, ustack⟩ := r
    obtain ⟨h1, h2, rfl, hus, h3, hptrs, hmem⟩ := hsome sp ustack rfl
    rw [List.nil_append] at hus
    subst hus
    rw [argPtrs_length] at h3
    dsimp only
    rw [argPtrs_length]
    have hsp : pushSp (argSp ((t+1)*PGSIZE) args) ((args.length+1)*8) =
        stackSp ((t+1)*PGSIZE) args := rfl
    have heq : stackSp ((t+1)*PGSIZE) args =
        (argSp ((t+1)*PGSIZE) args - (args.length+1)*8)/16*16 := pushSp_eq (by omega) (by omega)
    rw [hsp]
    rw [runs_ite]
    refine ⟨fun hlt => (runs_pure _).mpr ⟨rfl, f1, mem1, hb1, fun _ _ hc => (nomatch hc),
      fun _ hok => ?_⟩, fun hge => ?_⟩
    · have := hok.sp
      omega
    refine (hb1.pair.copyout hn hb1.writable fun _ => by omega).bind ?_
    rintro r2 s2 ⟨f2, hr2, hb2⟩
    have huser : (userMem s1 g (t+1)).user t = true := by
      rw [hb1.mem, hmem, UserMem.pushArgs_user]
      exact hu
    have hr : r2 = 0 := by
      rw [hr2, UserMem.copyout_stack huser (by omega) (by omega) (by
        rw [flatMap_wordBytes_length, List.length_append, argPtrs_length, List.length_singleton]
        omega)]
    rw [hr, if_neg (by decide), runs_pure]
    refine ⟨rfl, f2, _, hb1.trans hb2, fun sp argc he => ?_, fun hc => (nomatch hc)⟩
    obtain ⟨rfl, rfl⟩ : stackSp ((t+1)*PGSIZE) args = sp ∧ args.length = argc := by
      injection he with he
      injection he with he1 he2
      exact ⟨he1, he2⟩
    refine ⟨by rw [hb1.mem, hmem]; rfl, ⟨by omega, ?_, by omega, htop⟩, rfl, hcount⟩
    rw [hbase]
    exact hptrs

/-- `exec` from the stack on, above an image of `sz` bytes. -/
def execStack (mypt mysz pagetable : Nat) (argv : List Nat) (sz : Nat) :
    Prog Phys (Option (Nat × Nat) × Nat) := do
  let sz1 ← uvmalloc pagetable sz ((sz + 2*PGSIZE) % 2^64)
  if sz1 = 0 then pure (none, sz) else
  uvmclear pagetable (sz1 - 2*PGSIZE)
  execArgs mypt mysz pagetable argv sz1

theorem execBuild_eq (mypt mysz pagetable : Nat) (file : List UInt8) (elf : ElfHdr) (argv : List Nat) :
    execBuild mypt mysz pagetable file elf argv = (do
      let r ← execLoop pagetable file elf.phnum (elf.phoff % 2^32) 0
      if r.1 = false then pure (none, r.2) else
      execStack mypt mysz pagetable argv (PGROUNDUP r.2)) := rfl

/-- A page to guard the stack and a page with the arguments, above `v` pages. -/
theorem execStack_spec {s : Phys} {f : Nat → Pte} {argv : List Nat} {v : Nat} (hn : n = npages mysz)
    (h : Pair s old new f g F U n v tf) (hw : Writable g v) (hall : (userMem s g v).AllUser v)
    (hargv : argv ⊆ F) :
    Runs (execStack old mysz new argv (v*PGSIZE)) s fun r s' => ∃ f' g' mem,
      Built s old new f F U n tf f' g' (npages r.2) mem s' ∧
      (∀ sp argc, r.1 = some (sp, argc) →
        mem = UserMem.pushStack (argStrings s argv) ((v+2)*PGSIZE)
          (((userMem s g v).resize v (v+2)).guard v) ∧ r.2 = (v+2)*PGSIZE ∧
        StackOk ((v+2)*PGSIZE) (argStrings s argv) ∧
        sp = stackSp ((v+2)*PGSIZE) (argStrings s argv) ∧
        argc = argv.length) ∧
      (r.1 = none → StackOk ((v+2)*PGSIZE) (argStrings s argv) →
        s.freelist.length ≤ 6) := by
  have hp : PGSIZE = 4096 := rfl
  have hv : npages (v*PGSIZE) = v := npages_mul v
  have hsize := h.right.map.size
  have hT : TFPAGE + 1 < VPAGES := by decide
  have hmul : v*PGSIZE + 2*PGSIZE = (v+2)*PGSIZE := (Nat.add_mul v 2 PGSIZE).symm
  have h64 : (v+2)*PGSIZE < 2^64 := by
    have hlast : (v+1)*PGSIZE < MAXVA := page_lt_MAXVA (by omega)
    have hM : MAXVA + PGSIZE < 2^64 := by decide
    rw [Nat.succ_mul (v+1)]
    omega
  unfold execStack
  rw [hmul, Nat.mod_eq_of_lt h64]
  rw [← hv] at h hw
  refine (h.uvmalloc hw ((v+2)*PGSIZE)).bind ?_
  rintro r1 s1 ⟨g1, sz1, hb1, hr1⟩
  rw [max_eq_right (Nat.mul_le_mul_right _ (Nat.le_add_right v 2))] at hr1
  rw [hv] at hr1 hb1
  rw [npages_mul, Nat.add_sub_cancel_left] at hr1
  rw [runs_ite]
  constructor
  · intro hz
    have hs : sz1 = v*PGSIZE := by
      rcases hr1 with ⟨hr, hs, -⟩ | ⟨-, hs, -⟩
      · omega
      · exact hs
    refine (runs_pure _).mpr ⟨f, g1, _, by rw [← hs]; exact hb1, fun _ _ hc => (nomatch hc), fun _ _ => ?_⟩
    rcases hr1 with ⟨hr, -⟩ | ⟨-, -, hfew⟩
    · omega
    · exact hfew
  intro hnz
  obtain ⟨rfl, rfl, -⟩ := hr1.resolve_right fun hc => hnz hc.1
  rw [npages_mul] at hb1
  have hguard : (v+2)*PGSIZE - 2*PGSIZE = v*PGSIZE := by omega
  rw [hguard]
  refine (hb1.pair.uvmclear hb1.writable (v := v) (by omega)).bind ?_
  rintro _ s2 ⟨g2, hb2⟩
  have hb12 := hb1.trans hb2
  have hmem := hb2.mem
  rw [hb1.mem] at hmem
  have hu : (userMem s2 g2 (v+2)).user (v+1) = true := by
    rw [hmem]
    exact (update_of_ne (Nat.succ_ne_self v) _ _).trans (hall.resize (v+2) (v+1) (by omega))
  refine (execArgs_spec hn (Nat.succ_pos v) hb2.writable hb2.pair hu hargv).imp ?_
  rintro ⟨r, _⟩ s3 ⟨rfl, f3, mem3, hb3, hsome, hnone⟩
  have hkeep := hb12.argStrings hargv
  rw [hkeep, hmem] at hsome
  rw [hkeep] at hnone
  refine ⟨f3, g2, mem3, ?_, fun sp argc he => ?_, fun he hok => absurd hok (hnone he)⟩
  · rw [npages_mul]
    exact hb12.trans hb3
  · obtain ⟨h1, h2, h3, h4⟩ := hsome sp argc he
    exact ⟨h1, rfl, h2, h3, h4⟩

/-- What `exec` has built when it commits, and what there is to give back when it fails. -/
theorem execBuild_spec {s : Phys} {f : Nat → Pte} (file : List UInt8) {argv : List Nat}
    (hn : n = npages mysz) (h : Pair s old new f g F U n 0 tf) (hargv : argv ⊆ F) :
    Runs (execBuild old mysz new file (elfHdr file) argv) s fun r s' => ∃ f' g' mem,
      Built s old new f F U n tf f' g' (npages r.2) mem s' ∧
      (∀ sp argc, r.1 = some (sp, argc) →
        (mem, r.2) = execImage file (argStrings s argv) ∧
        ExecOk file (argStrings s argv) ∧
        sp = execSp file (argStrings s argv) ∧ argc = argv.length) ∧
      (r.1 = none → ExecAccepts file (argStrings s argv) →
        s.freelist.length ≤ 3*npages (loadedImage file).2 + 6) := by
  set args := argStrings s argv with hargs
  have h0 : npages 0 = 0 := by decide
  have hempty : userMem s g (npages 0) = UserMem.empty := by rw [h0, userMem_empty]
  rw [execBuild_eq]
  refine (execLoop_spec (elfHdr file).phnum s g ((elfHdr file).phoff % 2^32) 0
    (by rw [h0]; exact h) (by rw [h0]; intro k hk; omega) (by rw [h0]; intro v hv; omega)).bind ?_
  rintro ⟨ok, sz⟩ s1 ⟨g1, mem1, hb1, hu1, hdone, hstuck⟩
  rw [hempty] at hdone hstuck
  set im := loadedImage file with him
  dsimp only at hb1 hu1 hdone hstuck ⊢
  have hroom := hb1.pair.right.room
  have hpc := PAGE_COUNT_eq
  have hszlt : sz < 2^32 := size_lt (by omega)
  have hround : PGROUNDUP sz = npages sz * PGSIZE := PGROUNDUP_eq (by omega)
  cases ok with
  | false =>
    rw [if_pos rfl, runs_pure]
    refine ⟨f, g1, mem1, hb1, fun _ _ hc => (nomatch hc), fun _ hacc => ?_⟩
    have hfew : s.freelist.length ≤ 3*(npages im.2 - npages 0) := hstuck rfl hacc.headers hacc.pos
    omega
  | true =>
    obtain ⟨him1, hheaders, hcost⟩ := hdone rfl
    obtain ⟨rfl, rfl⟩ : mem1 = im.1 ∧ sz = im.2 := Prod.mk.inj him1
    set v := npages im.2 with hv
    have hstack := execImage_eq args hszlt
    rw [← him, ← hv] at hstack
    rw [if_neg (by decide), hround]
    refine (execStack_spec hn hb1.pair hb1.writable (by rw [hb1.mem]; exact hu1) hargv).imp ?_
    rintro r s2 ⟨f2, g2, mem2, hb2, hsome, hnone⟩
    have hkeep := hb1.argStrings hargv
    rw [hkeep, hb1.mem] at hsome
    rw [hkeep] at hnone
    refine ⟨f2, g2, mem2, hb1.trans hb2, fun sp argc he => ?_, fun he hacc => ?_⟩
    · obtain ⟨hmem, hr2, hok, hsp, hargc⟩ := hsome sp argc he
      refine ⟨by rw [hmem, hr2, hstack], ⟨?_, hheaders⟩, ?_, hargc⟩
      · rw [hstack]
        exact hok
      · rw [hsp, execSp, hstack]
    · have hok := hacc.toStackOk
      rw [hstack] at hok
      have hfew := hnone he hok
      unfold Costs at hcost
      omega

end Stack

end Xv6
