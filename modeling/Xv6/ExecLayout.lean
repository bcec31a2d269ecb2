import Xv6.ExecBounds

/-! What a successful `exec` leaves in the new address space, byte by byte: the
segments of the file, the strings and the array of pointers on the stack, and the
page that guards it. -/
namespace Xv6

open Function

section Segments
variable {file : List UInt8}

/-- The rounds of `loadseg` write one piece of the file. -/
theorem UserMem.loadsegLoop_put {va offset sz : Nat} (hal : va % PGSIZE = 0)
    (hend : offset + sz ≤ file.length) (hlen : file.length < 2^32) (k : Nat) :
    ∀ (j : Nat) (m : UserMem), sz ≤ (j+k)*PGSIZE → (j+k)*PGSIZE < sz + PGSIZE →
    UserMem.loadsegLoop va file offset sz k (j*PGSIZE) m =
      m.put (va + j*PGSIZE) ((file.drop (offset + j*PGSIZE)).take (sz - j*PGSIZE)) := by
  induction k with
  | zero =>
    intro j m hj _
    rw [Nat.add_zero] at hj
    rw [Nat.sub_eq_zero_of_le hj, List.take_zero, UserMem.put_nil]
    rfl
  | succ k ih =>
    intro j m hj hj'
    have hnext : (j+1)*PGSIZE = j*PGSIZE + PGSIZE := Nat.succ_mul j PGSIZE
    have hlast : (j+1+k)*PGSIZE = j*PGSIZE + PGSIZE + k*PGSIZE := by ring
    rw [show j+(k+1) = j+1+k by omega] at hj hj'
    set n := min (sz - j*PGSIZE) PGSIZE with hn
    set l := file.drop (offset + j*PGSIZE) with hl
    have hdata : readiBytes file ((offset + j*PGSIZE) % 2^32) n = l.take n := by
      unfold readiBytes
      rw [Nat.mod_eq_of_lt (show offset + j*PGSIZE < 2^32 by omega),
        Nat.mod_eq_of_lt (show offset + j*PGSIZE + n < 2^32 by omega), if_neg (by omega)]
    have hdlen : (l.take n).length = n := by
      rw [hl, List.length_take, List.length_drop]
      omega
    have hmod : (va + j*PGSIZE) % PGSIZE = 0 := by rw [Nat.add_mul_mod_self_right, hal]
    have hput := m.write_put (show (l.take n).length ≤ PGSIZE - (va + j*PGSIZE)%PGSIZE by omega)
    rw [hmod] at hput
    unfold UserMem.loadsegLoop
    rw [← hnext, ih (j+1) _ hj hj', ← hn, hdata, hput]
    by_cases hmore : PGSIZE < sz - j*PGSIZE
    · rw [show sz - j*PGSIZE = n + (sz - (j+1)*PGSIZE) by omega, List.take_add,
        UserMem.put_append, hdlen, hl, List.drop_drop, show n = PGSIZE by omega, hnext,
        Nat.add_assoc, Nat.add_assoc]
    · rw [show sz - (j+1)*PGSIZE = 0 by omega, List.take_zero, UserMem.put_nil,
        show sz - j*PGSIZE = n by omega]

theorem SegmentOk.piece {ph : ProgHdr} (h : SegmentOk file ph) (hlen : file.length < 2^32)
    (hoff : ph.off < 2^32) : ((file.drop ph.off).take ph.filesz).length = ph.filesz := by
  rcases Nat.eq_zero_or_pos ph.filesz with h0 | hpos
  · rw [h0]
    rfl
  · have hend := h.end_le hlen hoff hpos
    rw [List.length_take, List.length_drop]
    omega

theorem UserMem.loadSegment_put {ph : ProgHdr} (im : UserMem × Nat) (h : SegmentOk file ph)
    (hlen : file.length < 2^32) (hoff : ph.off < 2^32) :
    (UserMem.loadSegment file ph im).1 =
      (im.1.resize (npages im.2) (npages (max im.2 (ph.vaddr + ph.memsz)))).put ph.vaddr
        ((file.drop ph.off).take ph.filesz) := by
  have hp : PGSIZE = 4096 := rfl
  have hsz := h.filesz
  have hfit := h.fits
  unfold UserMem.loadSegment
  dsimp only
  rw [Nat.mod_eq_of_lt hoff, Nat.mod_eq_of_lt (show ph.filesz < 2^32 by omega)]
  rcases Nat.eq_zero_or_pos ph.filesz with h0 | hpos
  · rw [h0, List.take_zero, UserMem.put_nil]
    rfl
  · have hloop := UserMem.loadsegLoop_put h.aligned (h.end_le hlen hoff hpos) hlen
      ((ph.filesz + PGSIZE - 1)/PGSIZE) 0
      (im.1.resize (npages im.2) (npages (max im.2 (ph.vaddr + ph.memsz))))
      (by rw [hp]; omega) (by rw [hp]; omega)
    simpa using hloop

def PageDisjoint (a b : ProgHdr) : Prop :=
  ∀ i < a.memsz, ∀ j < b.memsz, (a.vaddr+i)/PGSIZE ≠ (b.vaddr+j)/PGSIZE

/-- The image and its size when the segments `done` are loaded. -/
structure Segments (file : List UInt8) (im : UserMem × Nat) (done : List ProgHdr) : Prop where
  size : im.2 < 2^32
  user : im.1.AllUser (npages im.2)
  filesz : ∀ ph ∈ done, ph.filesz ≤ ph.memsz
  fits : ∀ ph ∈ done, ph.vaddr + ph.memsz ≤ im.2
  data : ∀ ph ∈ done, ∀ j < ph.filesz, im.1.byte (ph.vaddr+j) = file.getD (ph.off+j) 0
  zero : ∀ ph ∈ done, ∀ j, ph.filesz ≤ j → j < ph.memsz → im.1.byte (ph.vaddr+j) = 0
  rest : ∀ x, (∀ ph ∈ done, ∀ j < ph.memsz, (ph.vaddr+j)/PGSIZE ≠ x/PGSIZE) → im.1.byte x = 0

theorem Segments.nil : Segments file (UserMem.empty, 0) [] := by
  have h0 : npages 0 = 0 := by decide
  refine ⟨by decide, ?_, by simp, by simp, by simp, by simp, fun _ _ => rfl⟩
  rw [h0]
  intro v hv
  omega

theorem Segments.resize_byte {im : UserMem × Nat} {done : List ProgHdr}
    (h : Segments file im done) {n : Nat} (hn : npages im.2 ≤ n) (x : Nat) :
    (im.1.resize (npages im.2) n).byte x = im.1.byte x := by
  unfold UserMem.byte UserMem.resize
  dsimp only
  by_cases hx : x/PGSIZE < npages im.2
  · rw [if_pos ⟨by omega, hx⟩]
  · rw [if_neg (by omega)]
    symm
    apply h.rest x
    intro ph hph j hj he
    apply hx
    rw [← he, ← page_below_iff]
    have hfit := h.fits ph hph
    have hle := Nat.div_mul_le_self (ph.vaddr+j) PGSIZE
    omega

theorem Segments.load {im : UserMem × Nat} {done : List ProgHdr} {ph : ProgHdr}
    (h : Segments file im done) (hlen : file.length < 2^32) (hok : SegmentOk file ph)
    (hoff : ph.off < 2^32) (hdis : ∀ q ∈ done, PageDisjoint q ph) :
    Segments file (UserMem.loadSegment file ph im) (ph :: done) := by
  have hfm := hok.filesz
  have hfit := hok.fits
  have hput := UserMem.loadSegment_put im hok hlen hoff
  have hsz : (UserMem.loadSegment file ph im).2 = max im.2 (ph.vaddr + ph.memsz) := rfl
  set m := UserMem.loadSegment file ph im
  -- Only the bytes of the segment change.
  have hbyte (x : Nat) : m.1.byte x = if ph.vaddr ≤ x ∧ x < ph.vaddr + ph.filesz
      then file.getD (ph.off + (x - ph.vaddr)) 0 else im.1.byte x := by
    rw [hput, UserMem.put_byte, hok.piece hlen hoff, h.resize_byte (npages_mono (le_max_left _ _))]
    split_ifs with hc
    · rw [List.getD_eq_getElem?_getD, List.getElem?_take_of_lt (by omega), List.getElem?_drop,
        List.getD_eq_getElem?_getD]
    · rfl
  have hother (x : Nat) (hx : ∀ j < ph.memsz, (ph.vaddr+j)/PGSIZE ≠ x/PGSIZE) :
      m.1.byte x = im.1.byte x := by
    rw [hbyte, if_neg]
    intro hc
    apply hx (x - ph.vaddr) (by omega)
    rw [show ph.vaddr + (x - ph.vaddr) = x by omega]
  have hapart (q : ProgHdr) (hq : q ∈ done) (i : Nat) (hi : i < q.memsz) :
      m.1.byte (q.vaddr+i) = im.1.byte (q.vaddr+i) :=
    hother _ fun j hj he => hdis q hq i hi j hj he.symm
  have hsize := h.size
  refine ⟨by rw [hsz]; omega, ?_, List.forall_mem_cons.mpr ⟨hfm, h.filesz⟩,
    List.forall_mem_cons.mpr ⟨by omega, fun q hq => ?_⟩,
    List.forall_mem_cons.mpr ⟨fun j hj => ?_, fun q hq j hj => ?_⟩,
    List.forall_mem_cons.mpr ⟨fun j hj1 hj2 => ?_, fun q hq j hj1 hj2 => ?_⟩, fun x hx => ?_⟩
  · rw [hput, hsz]
    exact h.user.resize _
  · have := h.fits q hq
    omega
  · rw [hbyte, if_pos ⟨by omega, by omega⟩, Nat.add_sub_cancel_left]
  · have := h.filesz q hq
    rw [hapart q hq j (by omega)]
    exact h.data q hq j hj
  · rw [hbyte, if_neg (by omega)]
    exact h.rest _ fun r hr i hi => hdis r hr i hi j hj2
  · rw [hapart q hq j hj2]
    exact h.zero q hq j hj1 hj2
  · rw [hother x (hx ph List.mem_cons_self)]
    exact h.rest x fun q hq => hx q (List.mem_cons_of_mem _ hq)

/-- The loadable headers in the order of the loop. -/
def loads (file : List UInt8) : Nat → Nat → List ProgHdr
  | 0, _ => []
  | i+1, off =>
    if (phdrAt file off).type = ELF_PROG_LOAD
    then phdrAt file off :: loads file i ((off+PROGHDR_SIZE) % 2^32)
    else loads file i ((off+PROGHDR_SIZE) % 2^32)

/-- The loop loads them one after the other. -/
theorem Segments.loop (hlen : file.length < 2^32) (n : Nat) : ∀ (off : Nat) (im : UserMem × Nat)
    (done : List ProgHdr), HeadersOk file n off → Segments file im done →
    (∀ ph ∈ loads file n off, ph.off < 2^32 ∧ ∀ q ∈ done, PageDisjoint q ph) →
    (loads file n off).Pairwise PageDisjoint →
    ∃ all, Segments file (UserMem.execLoop file n off im) all ∧ done ⊆ all ∧
      loads file n off ⊆ all := by
  induction n with
  | zero => exact fun off im done _ h _ _ => ⟨done, h, List.Subset.refl _, List.nil_subset _⟩
  | succ n ih =>
    intro off im done hh h hload hdis
    obtain ⟨-, hseg, hrest⟩ := hh
    unfold UserMem.execLoop loads
    unfold loads at hload hdis
    by_cases htype : (phdrAt file off).type = ELF_PROG_LOAD
    · rw [if_pos htype] at hload hdis
      rw [if_pos htype, if_neg (not_not.mpr htype)]
      obtain ⟨⟨hoff0, hdis0⟩, hload⟩ := List.forall_mem_cons.mp hload
      obtain ⟨hfirst, hdis⟩ := List.pairwise_cons.mp hdis
      obtain ⟨all, hall, hdone, hsub⟩ := ih _ _ _ hrest (h.load hlen (hseg htype) hoff0 hdis0)
        (fun ph hph => ⟨(hload ph hph).1, List.forall_mem_cons.mpr ⟨hfirst ph hph,
          (hload ph hph).2⟩⟩) hdis
      obtain ⟨hhead, hdone⟩ := List.cons_subset.mp hdone
      exact ⟨all, hall, hdone, List.cons_subset.mpr ⟨hhead, hsub⟩⟩
    · rw [if_neg htype] at hload hdis
      rw [if_neg htype, if_pos htype]
      exact ih _ im done hrest h hload hdis

/-- The headers that the loop reads, as the fields of the file place them. -/
theorem loads_eq (n : Nat) : ∀ off, off < 2^32 → file.length < 2^32 → HeadersOk file n off →
    loads file n off = ((List.range n).map fun i => ProgHdr.ofBytes (bytesOf
      ((file.drop (off + i*PROGHDR_SIZE)).take PROGHDR_SIZE))).filter
        fun ph => decide (ph.type = ELF_PROG_LOAD) := by
  induction n with
  | zero => exact fun _ _ _ _ => rfl
  | succ n ih =>
    intro off hoff hlen h
    obtain ⟨hdata, -, hrest⟩ := h
    obtain ⟨hin, heq⟩ := readiBytes_full (by decide) hdata
    rw [Nat.mod_eq_of_lt (by omega)] at hrest
    unfold loads
    rw [Nat.mod_eq_of_lt (by omega), ih _ (by omega) hlen hrest, List.range_succ_eq_map,
      List.map_cons, List.filter_cons, List.map_map, Nat.zero_mul, Nat.add_zero, ← heq, phdrAt_eq]
    simp only [Function.comp_def, Nat.succ_mul, Nat.add_assoc, Nat.add_comm PROGHDR_SIZE,
      decide_eq_true_eq]

end Segments

/-- Loadable segments at offsets that fit in a `uint`, in pages of their own. -/
structure LoadableFile (file : List UInt8) : Prop where
  length : file.length < 2^32
  phoff : (elfHdr file).phoff < 2^32
  off : ∀ i < (elfHdr file).phnum, (progHdr file i).type = ELF_PROG_LOAD →
    (progHdr file i).off < 2^32
  disjoint : ∀ i < (elfHdr file).phnum, ∀ j < i, (progHdr file i).type = ELF_PROG_LOAD →
    (progHdr file j).type = ELF_PROG_LOAD → PageDisjoint (progHdr file j) (progHdr file i)

theorem ExecOk.segments {file : List UInt8} {args : List (List UInt8)} (h : ExecOk file args)
    (hf : LoadableFile file) : ∃ all, Segments file (loadedImage file) all ∧
      ∀ i < (elfHdr file).phnum, (progHdr file i).type = ELF_PROG_LOAD → progHdr file i ∈ all := by
  have hh := h.headers
  unfold loadedImage
  rw [Nat.mod_eq_of_lt hf.phoff] at hh ⊢
  have hloads := loads_eq _ _ hf.phoff hf.length hh
  change _ = ((List.range _).map (progHdr file)).filter _ at hloads
  obtain ⟨all, hall, -, hsub⟩ := Segments.loop hf.length _ _ _ [] hh Segments.nil
    (fun ph hph => by
      simp only [hloads, List.mem_filter, List.mem_map, List.mem_range, decide_eq_true_eq] at hph
      obtain ⟨⟨i, hi, rfl⟩, ht⟩ := hph
      exact ⟨hf.off i hi ht, by simp⟩)
    (by
      rw [hloads, List.pairwise_filter, List.pairwise_map]
      refine List.pairwise_lt_range.imp_of_mem fun {j i} _ hi hlt hj ht => ?_
      exact hf.disjoint i (List.mem_range.mp hi) j hlt (of_decide_eq_true ht) (of_decide_eq_true hj))
  refine ⟨all, hall, fun i hi ht => hsub ?_⟩
  rw [hloads, List.mem_filter]
  exact ⟨List.mem_map.mpr ⟨i, List.mem_range.mpr hi, rfl⟩, decide_eq_true ht⟩

section Stack

def ShortArgs (args : List (List UInt8)) : Prop := ∀ a ∈ args, 0 < a.length ∧ a.length ≤ PGSIZE

/-- The strings from `sp` down stay on page `t`. -/
structure ArgsFit (t sp : Nat) (args : List (List UInt8)) : Prop where
  pos : 1 ≤ t
  last : (t+1)*PGSIZE < MAXVA
  low : t*PGSIZE ≤ sp
  top : sp ≤ (t+1)*PGSIZE
  short : ShortArgs args
  ptrs : ∀ x ∈ argPtrs sp args, t*PGSIZE ≤ x

variable {t sp : Nat} {a : List UInt8} {args : List (List UInt8)}

theorem ArgsFit.page (h : ArgsFit t sp args) : t < VPAGES := by
  have hlt := page_lt_iff.mpr h.last
  rw [Nat.mul_div_cancel _ (by decide)] at hlt
  omega

theorem ArgsFit.push (h : ArgsFit t sp args) {n : Nat} (hn : n ≤ PGSIZE) :
    pushSp sp n = (sp-n)/16*16 ∧ pushSp sp n + n ≤ sp := by
  have hpg : PGSIZE ≤ t*PGSIZE := Nat.le_mul_of_pos_left _ h.pos
  have h64 : MAXVA < 2^64 := by decide
  have hlow := h.low
  have htop := h.top
  have hlast := h.last
  have heq : pushSp sp n = (sp-n)/16*16 := pushSp_eq (by omega) (by omega)
  exact ⟨heq, by omega⟩

theorem ArgsFit.tail (h : ArgsFit t sp (a :: args)) :
    pushSp sp a.length + a.length ≤ sp ∧ ArgsFit t (pushSp sp a.length) args := by
  have hle := (h.push (h.short a List.mem_cons_self).2).2
  have htop := h.top
  have hptrs := h.ptrs
  rw [argPtrs] at hptrs
  exact ⟨hle, h.pos, h.last, hptrs _ List.mem_cons_self, by omega,
    fun b hb => h.short b (List.mem_cons_of_mem _ hb), fun x hx => hptrs x (List.mem_cons_of_mem _ hx)⟩

theorem ArgsFit.bounds (args : List (List UInt8)) : ∀ sp, ArgsFit t sp args →
    t*PGSIZE ≤ argSp sp args ∧ argSp sp args ≤ sp ∧
    ∀ i < args.length, argSp sp args ≤ (argPtrs sp args).getD i 0 ∧
      (argPtrs sp args).getD i 0 + (args.getD i []).length ≤ sp ∧
      ∀ j < i, (argPtrs sp args).getD i 0 + (args.getD i []).length ≤ (argPtrs sp args).getD j 0 := by
  induction args with
  | nil => exact fun sp h => ⟨h.low, le_rfl, fun i hi => absurd hi (by simp)⟩
  | cons a args ih =>
    intro sp h
    obtain ⟨hle, htail⟩ := h.tail
    obtain ⟨h3, h4, h5⟩ := ih _ htail
    rw [argSp_cons, argPtrs]
    refine ⟨h3, by omega, fun i hi => ?_⟩
    cases i with
    | zero =>
      simp only [List.getD_cons_zero]
      exact ⟨h4, hle, fun j hj => absurd hj (by omega)⟩
    | succ i =>
      obtain ⟨h6, h7, h8⟩ := h5 i (by simpa using hi)
      simp only [List.getD_cons_succ]
      refine ⟨h6, by omega, fun j hj => ?_⟩
      cases j with
      | zero =>
        simp only [List.getD_cons_zero]
        exact h7
      | succ j =>
        simp only [List.getD_cons_succ]
        exact h8 j (by omega)

theorem UserMem.pushArgs_bytes (args : List (List UInt8)) : ∀ (sp : Nat) (m : UserMem),
    ArgsFit t sp args → m.user t = true →
    (∀ x, x < argSp sp args ∨ sp ≤ x → (UserMem.pushArgs args sp m).byte x = m.byte x) ∧
    ∀ i < args.length, ∀ j < (args.getD i []).length,
      (UserMem.pushArgs args sp m).byte ((argPtrs sp args).getD i 0 + j) =
        (args.getD i []).getD j 0 := by
  induction args with
  | nil => exact fun sp m _ _ => ⟨fun _ _ => rfl, fun i hi => absurd hi (by simp)⟩
  | cons a args ih =>
    intro sp m h hu
    obtain ⟨hle, htail⟩ := h.tail
    rw [UserMem.pushArgs, argSp_cons, argPtrs]
    set sp1 := pushSp sp a.length
    have htop := h.top
    rw [UserMem.copyout_stack hu h.page htail.low (by omega)]
    obtain ⟨h4, h5⟩ := ih sp1 (m.put sp1 a) htail hu
    obtain ⟨-, hdown, -⟩ := htail.bounds
    refine ⟨fun x hxx => ?_, fun i hi j hj => ?_⟩
    · rw [h4 x (by omega), UserMem.put_byte, if_neg (by omega)]
    · cases i with
      | zero =>
        simp only [List.getD_cons_zero] at hj ⊢
        rw [h4 _ (by omega), UserMem.put_byte, if_pos (by omega), Nat.add_sub_cancel_left]
      | succ i =>
        simp only [List.getD_cons_succ] at hj ⊢
        exact h5 i (by simpa using hi) j hj

theorem wordBytes_getD (l : List Nat) : ∀ i < l.length, ∀ j < 8,
    (l.flatMap wordBytes).getD (8*i+j) 0 = UInt8.ofNat (l.getD i 0 / 256^j) := by
  induction l with
  | nil => exact fun i hi => absurd hi (by simp)
  | cons x l ih =>
    intro i hi j hj
    have hlen : (wordBytes x).length = 8 := by simp [wordBytes]
    rw [List.flatMap_cons]
    cases i with
    | zero =>
      rw [List.getD_append _ _ _ _ (by omega)]
      simp [wordBytes, hj]
    | succ i =>
      rw [List.getD_append_right _ _ _ _ (by omega), hlen,
        show 8*(i+1) + j - 8 = 8*i + j by omega, ih i (by simpa using hi) j hj]
      rfl

theorem StackOk.fit (h : StackOk ((t+1)*PGSIZE) args) (ht : 1 ≤ t) (hs : ShortArgs args) :
    ArgsFit t ((t+1)*PGSIZE) args := by
  have hnext : (t+1)*PGSIZE = t*PGSIZE + PGSIZE := Nat.succ_mul t PGSIZE
  refine ⟨ht, h.size, by omega, le_rfl, hs, fun x hx => ?_⟩
  have := h.ptrs x hx
  omega

/-- The array is below the strings, on the same page. -/
theorem StackOk.room (h : StackOk ((t+1)*PGSIZE) args) (ht : 1 ≤ t) (hs : ShortArgs args) :
    t*PGSIZE ≤ stackSp ((t+1)*PGSIZE) args ∧ stackSp ((t+1)*PGSIZE) args % 16 = 0 ∧
    stackSp ((t+1)*PGSIZE) args + 8*(args.length+1) ≤ argSp ((t+1)*PGSIZE) args := by
  have hnext : (t+1)*PGSIZE = t*PGSIZE + PGSIZE := Nat.succ_mul t PGSIZE
  have hpg : PGSIZE ≤ t*PGSIZE := Nat.le_mul_of_pos_left _ ht
  have h64 : MAXVA < 2^64 := by decide
  have hMA : MAXARG = 32 := rfl
  have hp : PGSIZE = 4096 := rfl
  have hsize := h.size
  have hcount := h.count
  have hsp := h.sp
  obtain ⟨hlow, hdown, -⟩ := (h.fit ht hs).bounds
  have heq : stackSp ((t+1)*PGSIZE) args =
      (argSp ((t+1)*PGSIZE) args - (args.length+1)*8)/16*16 := pushSp_eq (by omega) (by omega)
  exact ⟨by omega, by omega, by omega⟩

/-- What the stack page holds then. -/
theorem UserMem.pushStack_bytes {m : UserMem} (h : StackOk ((t+1)*PGSIZE) args) (ht : 1 ≤ t)
    (hs : ShortArgs args) (hu : m.user t = true) :
    (UserMem.pushStack args ((t+1)*PGSIZE) m).user = m.user ∧
    (∀ x < t*PGSIZE, (UserMem.pushStack args ((t+1)*PGSIZE) m).byte x = m.byte x) ∧
    (∀ i < args.length, ∀ j < (args.getD i []).length,
      (UserMem.pushStack args ((t+1)*PGSIZE) m).byte
        ((argPtrs ((t+1)*PGSIZE) args).getD i 0 + j) = (args.getD i []).getD j 0) ∧
    ∀ j < 8*(args.length+1), (UserMem.pushStack args ((t+1)*PGSIZE) m).byte
        (stackSp ((t+1)*PGSIZE) args + j) =
      ((argPtrs ((t+1)*PGSIZE) args ++ [0]).flatMap wordBytes).getD j 0 := by
  have hfit := h.fit ht hs
  obtain ⟨hlow, -, hroom⟩ := h.room ht hs
  obtain ⟨hargs, hdown, hbelow⟩ := hfit.bounds
  obtain ⟨hkeep, hstr⟩ := UserMem.pushArgs_bytes args _ m hfit hu
  have huser := UserMem.pushArgs_user args ((t+1)*PGSIZE) m
  have hlen : ((argPtrs ((t+1)*PGSIZE) args ++ [0]).flatMap wordBytes).length =
      8*(args.length+1) := by
    rw [flatMap_wordBytes_length, List.length_append, argPtrs_length]
    rfl
  have hput : UserMem.pushStack args ((t+1)*PGSIZE) m =
      (UserMem.pushArgs args ((t+1)*PGSIZE) m).put (stackSp ((t+1)*PGSIZE) args)
        ((argPtrs ((t+1)*PGSIZE) args ++ [0]).flatMap wordBytes) := by
    unfold UserMem.pushStack
    rw [UserMem.copyout_stack (by rw [huser]; exact hu) hfit.page hlow (by omega)]
  rw [hput]
  refine ⟨huser, fun x hx => ?_, fun i hi j hj => ?_, fun j hj => ?_⟩
  · rw [UserMem.put_byte, if_neg (by omega)]
    exact hkeep x (by omega)
  · have := (hbelow i hi).1
    rw [UserMem.put_byte, if_neg (by omega)]
    exact hstr i hi j hj
  · rw [UserMem.put_byte, if_pos (by omega), Nat.add_sub_cancel_left]

end Stack

/-- The parts of the image: `v` pages with the segments, the guard page, the stack. -/
structure ImageParts (file : List UInt8) (args : List (List UInt8)) (v : Nat) : Prop where
  size : (execImage file args).2 = (v+2)*PGSIZE
  user : ∀ w, (execImage file args).1.user w = true ↔ w < v+2 ∧ w ≠ v
  data : ∀ i < (elfHdr file).phnum, (progHdr file i).type = ELF_PROG_LOAD →
    ∀ j < (progHdr file i).filesz, (progHdr file i).vaddr + j < v*PGSIZE ∧
      (execImage file args).1.byte ((progHdr file i).vaddr+j) =
        file.getD ((progHdr file i).off+j) 0
  zero : ∀ i < (elfHdr file).phnum, (progHdr file i).type = ELF_PROG_LOAD →
    ∀ j, (progHdr file i).filesz ≤ j → j < (progHdr file i).memsz →
      (progHdr file i).vaddr + j < v*PGSIZE ∧
      (execImage file args).1.byte ((progHdr file i).vaddr+j) = 0
  strings : ∀ i < args.length, ∀ j < (args.getD i []).length,
    (execImage file args).1.byte ((argPtrs ((v+2)*PGSIZE) args).getD i 0 + j) =
      (args.getD i []).getD j 0
  array : ∀ j < 8*(args.length+1), (execImage file args).1.byte (stackSp ((v+2)*PGSIZE) args + j) =
    ((argPtrs ((v+2)*PGSIZE) args ++ [0]).flatMap wordBytes).getD j 0

theorem UserMem.AllUser.guarded {m : UserMem} {v : Nat} (h : m.AllUser v) (w : Nat) :
    ((m.resize v (v+2)).guard v).user w = true ↔ w < v+2 ∧ w ≠ v := by
  unfold UserMem.guard
  dsimp only
  by_cases hw : w = v
  · rw [hw, update_self]
    simp
  · rw [update_of_ne hw]
    constructor
    · intro hc
      simp only [UserMem.resize, Bool.and_eq_true, decide_eq_true_eq] at hc
      exact ⟨hc.1, hw⟩
    · intro hc
      exact h.resize (v+2) w hc.1

theorem ExecOk.parts {file : List UInt8} {args : List (List UInt8)} (h : ExecOk file args)
    (hf : LoadableFile file) (hs : ShortArgs args) : ∃ v, ImageParts file args v := by
  obtain ⟨all, hall, hmem⟩ := h.segments hf
  have himg := execImage_eq args hall.size
  have hstack := h.toStackOk
  set im := loadedImage file
  set v := npages im.2 with hv
  have hguard := hall.user.guarded
  rw [himg] at hstack
  obtain ⟨huser, hkeep, hstr, harray⟩ := UserMem.pushStack_bytes hstack (Nat.succ_pos v) hs
    ((hguard (v+1)).mpr ⟨by omega, by omega⟩)
  have himage (x : Nat) (hx : x < im.2) : x < v*PGSIZE ∧
      (execImage file args).1.byte x = im.1.byte x := by
    have hxv : x < v*PGSIZE := by
      rw [hv]
      unfold npages PGSIZE
      omega
    refine ⟨hxv, ?_⟩
    rw [himg]
    exact (hkeep x (by rw [Nat.succ_mul]; omega)).trans (hall.resize_byte (by omega) x)
  refine ⟨v, by rw [himg], fun w => ?_, fun i hi ht j hj => ?_, fun i hi ht j hj1 hj2 => ?_,
    by rw [himg]; exact hstr, by rw [himg]; exact harray⟩
  · rw [himg]
    dsimp only
    rw [huser]
    exact hguard w
  · have hin := hmem i hi ht
    have h1 := hall.fits _ hin
    have h2 := hall.filesz _ hin
    obtain ⟨h3, h4⟩ := himage ((progHdr file i).vaddr+j) (by omega)
    exact ⟨h3, h4.trans (hall.data _ hin j hj)⟩
  · have hin := hmem i hi ht
    have h1 := hall.fits _ hin
    obtain ⟨h3, h4⟩ := himage ((progHdr file i).vaddr+j) (by omega)
    exact ⟨h3, h4.trans (hall.zero _ hin j hj1 hj2)⟩

def Kernel.loadWord (k : Kernel) (p va : Nat) : Option Nat :=
  if ∀ i < 8, (k.load p (va+i)).isSome = true then
    some (leGet 8 (fun i => (k.load p (va+i)).getD 0) 0)
  else none

def Kernel.sp (k : Kernel) (p : Nat) : Nat := leGet 8 (k.phys.mem (k.proc p).trapframe) TF_SP

/-- What a program finds when it starts: its segments, and the arguments on the last
page of its memory, with `ptrs` as `argv`. -/
structure Started (k : Kernel) (p : Nat) (file : List UInt8) (args : List (List UInt8))
    (ptrs : List Nat) : Prop where
  data : ∀ i < (elfHdr file).phnum, (progHdr file i).type = ELF_PROG_LOAD →
    ∀ j < (progHdr file i).filesz, (progHdr file i).off + j < file.length ∧
      k.load p ((progHdr file i).vaddr+j) = file[(progHdr file i).off+j]?
  zero : ∀ i < (elfHdr file).phnum, (progHdr file i).type = ELF_PROG_LOAD →
    ∀ j, (progHdr file i).filesz ≤ j → j < (progHdr file i).memsz →
      k.load p ((progHdr file i).vaddr+j) = some 0
  a1 : leGet 8 (k.phys.mem (k.proc p).trapframe) TF_A1 = k.sp p
  aligned : k.sp p % 16 = 0
  top : (k.proc p).sz - PGSIZE ≤ k.sp p ∧ k.sp p < (k.proc p).sz
  argc : ptrs.length = args.length
  argv : ∀ i < args.length, k.loadWord p (k.sp p + 8*i) = some (ptrs.getD i 0)
  null : k.loadWord p (k.sp p + 8*args.length) = some 0
  strings : ∀ i < args.length, IsString (args.getD i []) ∧
    ∀ j < (args.getD i []).length, k.load p (ptrs.getD i 0 + j) = (args.getD i [])[j]?
  above : ∀ i < args.length, k.sp p + 8*(args.length+1) ≤ ptrs.getD i 0 ∧
    ptrs.getD i 0 + (args.getD i []).length ≤ (k.proc p).sz
  apart : ∀ i < args.length, ∀ j < i,
    ptrs.getD i 0 + (args.getD i []).length ≤ ptrs.getD j 0
  guard : ∀ x, (k.proc p).sz - 2*PGSIZE ≤ x → x < (k.proc p).sz - PGSIZE → ¬ k.userByte p x

theorem loadWord_of_bytes {k : Kernel} {p va x : Nat} (hx : x < 256^8)
    (h : ∀ j < 8, k.load p (va+j) = some (UInt8.ofNat (x / 256^j))) : k.loadWord p va = some x := by
  have hsome : ∀ j < 8, (k.load p (va+j)).isSome = true := fun j hj => by rw [h j hj]; rfl
  have hword : leGet 8 (fun i => (k.load p (va+i)).getD 0) 0 =
      leGet 8 (leSet 8 (fun _ => 0) 0 x) 0 := by
    apply leGet_congr
    intro j _ hj
    rw [h j (by omega), leSet, if_pos ⟨by omega, by omega⟩, Nat.sub_zero]
    rfl
  unfold Kernel.loadWord
  rw [if_pos hsome, hword, leGet_leSet_same, Nat.mod_eq_of_lt hx]

variable [Layout]

theorem ExecDone.started {k k' : Kernel} {p : Nat} {file : List UInt8} {args : List (List UInt8)}
    {r : Int} (h : ExecDone k k' p file args r) (hp : p ∈ procs) (hf : LoadableFile file)
    (hstr : ∀ a ∈ args, IsString a ∧ a.length ≤ PGSIZE) :
    Started k' p file args (argPtrs (execImage file args).2 args) := by
  have hs : ShortArgs args := by
    intro a ha
    obtain ⟨⟨t, rfl, -⟩, hlen⟩ := hstr a ha
    exact ⟨by simp, hlen⟩
  obtain ⟨v, hparts⟩ := h.ok.parts hf hs
  have hinv := h.step.inv
  have hptr := h.pagetable
  have hsize := hparts.size
  have hstack := h.ok.toStackOk
  have hszp : (k'.proc p).sz = (v+2)*PGSIZE := by
    rw [h.proc]
    exact hsize
  have htf : (k'.proc p).trapframe = (k.proc p).trapframe := by rw [h.proc]
  have hsp : k'.sp p = stackSp ((v+2)*PGSIZE) args := by
    unfold Kernel.sp
    rw [htf, ← hsize]
    exact h.sp
  rw [hsize] at hstack ⊢
  have hmax := hstack.size
  have h64 : MAXVA < 2^64 := by decide
  have htop : (v+2)*PGSIZE = (v+1)*PGSIZE + PGSIZE := Nat.succ_mul (v+1) PGSIZE
  have hmid : (v+1)*PGSIZE = v*PGSIZE + PGSIZE := Nat.succ_mul v PGSIZE
  have harray := hstack.room (Nat.succ_pos v) hs
  have hstrings := (hstack.fit (Nat.succ_pos v) hs).bounds
  rw [show v+1+1 = v+2 from rfl] at harray hstrings
  obtain ⟨hlow, haligned, hroom⟩ := harray
  obtain ⟨hargs, hdown, hbelow⟩ := hstrings
  -- What can be loaded is what the image has there.
  have hload (x : Nat) (hx : x < (v+2)*PGSIZE) (hne : x/PGSIZE ≠ v) :
      k'.load p x = some ((execImage file args).1.byte x) := by
    have hpg : x/PGSIZE < v+2 := (Nat.div_lt_iff_lt_mul (by decide)).mpr hx
    have hu : (execImage file args).1.userByte x :=
      ⟨by omega, (hparts.user (x/PGSIZE)).mpr ⟨hpg, hne⟩⟩
    rw [load_eq hinv hp hptr, h.step.mem]
    exact if_pos hu
  have himage (x : Nat) (hx : x < v*PGSIZE) : k'.load p x = some ((execImage file args).1.byte x) :=
    hload x (by omega) (Nat.ne_of_lt ((Nat.div_lt_iff_lt_mul (by decide)).mpr hx))
  have hstk (x : Nat) (h1 : (v+1)*PGSIZE ≤ x) (h2 : x < (v+2)*PGSIZE) :
      k'.load p x = some ((execImage file args).1.byte x) :=
    hload x h2 (Nat.ne_of_gt ((Nat.le_div_iff_mul_le (by decide)).mpr h1))
  have hword (i : Nat) (hi : i < args.length+1) :
      k'.loadWord p (stackSp ((v+2)*PGSIZE) args + 8*i) =
        some ((argPtrs ((v+2)*PGSIZE) args ++ [0]).getD i 0) := by
    have hlen : (argPtrs ((v+2)*PGSIZE) args ++ [0]).length = args.length+1 := by simp
    have hlt : (argPtrs ((v+2)*PGSIZE) args ++ [0]).getD i 0 < 256^8 := by
      by_cases hi' : i < args.length
      · rw [List.getD_append _ _ _ _ (by simpa using hi')]
        have := (hbelow i hi').2.1
        omega
      · rw [List.getD_append_right _ _ _ _ (by simp; omega), argPtrs_length,
          show i - args.length = 0 by omega]
        decide
    apply loadWord_of_bytes hlt
    intro j hj
    rw [Nat.add_assoc, hstk _ (by omega) (by omega), hparts.array (8*i+j) (by omega),
      wordBytes_getD _ i (by omega) j hj]
  have hself (i : Nat) (hi : i < args.length) : args.getD i [] ∈ args := by
    rw [List.getD_eq_getElem _ _ hi]
    exact List.getElem_mem hi
  exact {
    data := fun i hi ht j hj => by
      obtain ⟨h1, h2⟩ := hparts.data i hi ht j hj
      have hin : (progHdr file i).off + j < file.length := by
        have hseg := (h.ok.header hf.length hf.phoff hi).2 ht
        have hend := hseg.end_le hf.length (hf.off i hi ht) (by omega)
        omega
      refine ⟨hin, ?_⟩
      rw [himage _ h1, h2, List.getD_eq_getElem?_getD, List.getElem?_eq_getElem hin]
      rfl
    zero := fun i hi ht j hj1 hj2 => by
      obtain ⟨h1, h2⟩ := hparts.zero i hi ht j hj1 hj2
      rw [himage _ h1, h2]
    a1 := by
      rw [hsp, htf, ← hsize]
      exact h.a1
    aligned := by
      rw [hsp]
      exact haligned
    top := by
      rw [hsp, hszp]
      omega
    argc := argPtrs_length _ _
    argv := fun i hi => by
      rw [hsp, hword i (by omega), List.getD_append _ _ _ _ (by simpa using hi)]
    null := by
      rw [hsp, hword args.length (by omega), List.getD_append_right _ _ _ _ (by simp),
        argPtrs_length, Nat.sub_self]
      rfl
    strings := fun i hi => by
      refine ⟨(hstr _ (hself i hi)).1, fun j hj => ?_⟩
      obtain ⟨h1, h2, -⟩ := hbelow i hi
      rw [hstk _ (by omega) (by omega), hparts.strings i hi j hj, List.getD_eq_getElem?_getD,
        List.getElem?_eq_getElem hj]
      rfl
    above := fun i hi => by
      obtain ⟨h1, h2, -⟩ := hbelow i hi
      rw [hsp, hszp]
      exact ⟨hroom.trans h1, h2⟩
    apart := fun i hi => (hbelow i hi).2.2
    guard := fun x h1 h2 => by
      rw [hszp] at h1 h2
      rw [userByte_iff hinv hp hptr, h.step.mem]
      rintro ⟨-, hu⟩
      have hpg : x/PGSIZE = v := Nat.div_eq_of_lt_le (by omega) (by omega)
      exact ((hparts.user _).mp hu).2 hpg }

/-- A successful `exec` starts the program of the file with the given arguments, which the
kernel has in pages of its own. -/
theorem exec_starts_program {k0 k : Kernel} {p : Nat} (h : Reachable k0) (hk : KernelStep k0 k)
    (ha : k.active p) {file : List UInt8} (hf : LoadableFile file) {argv : List Nat}
    (hargv : argv ⊆ k.held) (hstr : ∀ a ∈ argv, IsString (pageString (k.phys.mem a))) :
    Runs (exec (some file) p argv) k fun r k' => r = -1 ∨ r = argv.length ∧
      ∃ ptrs, Started k' p file (argv.map fun a => pageString (k.phys.mem a)) ptrs := by
  refine (exec_spec hk.inv ha.1 (hk.pagetable_ne h ha) (some file)
    fun a ha => held_beside (hargv ha)).imp ?_
  rintro r k' ⟨-, ⟨hr, -⟩ | ⟨bytes, hbytes, hd⟩⟩
  · exact Or.inl hr
  · cases hbytes
    right
    refine ⟨by rw [hd.argc, argStrings, List.length_map], _, hd.started ha.1 hf ?_⟩
    intro l hl
    obtain ⟨a, ha', rfl⟩ := List.mem_map.mp hl
    exact ⟨hstr a ha', takeString_length _ _⟩

/-- The kernel can put a string into a page of its own. -/
theorem Inv.hold_string {k : Kernel} (h : Inv k) (hfree : k.phys.freelist ≠ []) {l : List UInt8}
    (hl : IsString l) (hlen : l.length ≤ PGSIZE) : ∃ pa k', KernelStep k k' ∧
      k'.held = pa :: k.held ∧ k.phys.freelist = pa :: k'.phys.freelist ∧
      pageString (k'.phys.mem pa) = l ∧ ∀ q, q ≠ pa → k'.phys.mem q = k.phys.mem q := by
  obtain ⟨r, k1, -, hstep, -, hr⟩ := holdPage_spec h
  cases r with
  | none => exact absurd hr.2 hfree
  | some pa =>
    obtain ⟨hf, hheld, hmem⟩ := hr
    have hwrite := hstep.inv.write_held (by rw [hheld]; exact List.mem_cons_self)
      (blit (k1.phys.mem pa) 0 l)
    refine ⟨pa, _, hstep.trans hwrite, hheld, hf, ?_, fun q hq => ?_⟩
    · rw [setPage_mem, update_self]
      exact pageString_blit hl hlen _
    · rw [setPage_mem, update_of_ne hq]
      exact hmem q hq

omit [Layout] in
/-- The first process runs a program with a segment that the file does not fill, and with two
arguments. -/
theorem exec_starts_sample : ∃ (_ : Layout) (k0 k : Kernel) (p : Nat) (argv : List Nat),
    Reachable k0 ∧ KernelStep k0 k ∧ k.active p ∧ Runs (exec (some sampleElf) p argv) k fun r k' =>
      r = 2 ∧ ∃ ptrs, Started k' p sampleElf [[0x61, 0], [0x62, 0x63, 0]] ptrs := by
  let _ := sampleLayout
  obtain ⟨k, hb, hk⟩ := exists_booted
  have hfree := hk.free
  have hne : k.phys.freelist ≠ [] := fun hc => by simp [hc] at hfree
  have hbc : IsString [0x62, 0x63, 0] := ⟨[0x62, 0x63], rfl, by decide⟩
  have hac : IsString [0x61, 0] := ⟨[0x61], rfl, by decide⟩
  obtain ⟨b, k1, hs1, hheld1, hfree1, hstr1, -⟩ := hk.inv.hold_string hne hbc
    (by decide)
  have hlen1 : k.phys.freelist.length = k1.phys.freelist.length + 1 := by rw [hfree1]; rfl
  have hne1 : k1.phys.freelist ≠ [] := fun hc => by
    rw [hc, List.length_nil] at hlen1
    omega
  obtain ⟨a, k2, hs2, hheld2, hfree2, hstr2, hkeep⟩ := hs1.inv.hold_string hne1
    hac (by decide)
  have hlen2 : k1.phys.freelist.length = k2.phys.freelist.length + 1 := by rw [hfree2]; rfl
  have hab : b ≠ a := by
    have hnd := hk.inv.ledger.free_nodup
    rw [hfree1, hfree2, List.nodup_cons, List.mem_cons, not_or] at hnd
    exact hnd.1.1
  have hstep := hs1.trans hs2
  have ha : k2.active k.initproc := by
    unfold Kernel.active
    rw [hstep.proc]
    exact hk.active
  have hargv : [a, b] ⊆ k2.held := by
    rw [hheld2, hheld1]
    simp
  have hargs : argStrings k2.phys [a, b] = [[0x61, 0], [0x62, 0x63, 0]] := by
    rw [argStrings, List.map_cons, List.map_singleton, hstr2, hkeep b hab, hstr1]
  have hstrs : ∀ l ∈ argStrings k2.phys [a, b], IsString l := by
    rw [hargs]
    exact List.forall_mem_cons.mpr ⟨hac, List.forall_mem_singleton.mpr hbc⟩
  have hpages : npages (loadedImage sampleElf).2 = 1 := by decide +kernel
  have hrun := exec_accepted (Reachable.boot hb) hstep ha hargv (by
    rw [hargs]
    exact sampleElf_accepts ⟨by decide, by decide +kernel, by decide +kernel, by decide⟩)
    (by omega)
  have hnum : (elfHdr sampleElf).phnum = 1 := by decide +kernel
  have hfile : LoadableFile sampleElf := by
    refine ⟨by decide +kernel, by decide +kernel, by decide +kernel, fun i hi j hj => ?_⟩
    omega
  obtain ⟨r, k', he, hr⟩ := exec_starts_program (Reachable.boot hb) hstep ha hfile hargv
    (List.forall_mem_map.mp hstrs)
  have h2 : r = 2 := hrun.of_eq he
  refine ⟨_, k, k2, k.initproc, [a, b], Reachable.boot hb, hstep, ha, r, k', he, h2, ?_⟩
  change r = -1 ∨ _ ∧ ∃ ptrs, Started k' _ _ (argStrings k2.phys [a, b]) ptrs at hr
  rw [hargs] at hr
  rcases hr with hr | hr
  · omega
  · exact hr.2

end Xv6
