import Xv6.CopyoutFrame

/-! Which offsets in an ELF file `exec` checks against the size of the file. The
fields of the headers have 64 bits, and `readi` sees the lower 32 of them. -/
namespace Xv6

def progHdr (file : List UInt8) (i : Nat) : ProgHdr :=
  ProgHdr.ofBytes (bytesOf ((file.drop ((elfHdr file).phoff + i*PROGHDR_SIZE)).take PROGHDR_SIZE))

structure InsideFile (file : List UInt8) : Prop where
  headers : ∀ i < (elfHdr file).phnum,
    (elfHdr file).phoff + i*PROGHDR_SIZE + PROGHDR_SIZE ≤ file.length
  segments : ∀ i < (elfHdr file).phnum, (progHdr file i).type = ELF_PROG_LOAD →
    (progHdr file i).off + (progHdr file i).filesz ≤ file.length

section Read
variable {file : List UInt8} {off n : Nat}

theorem readiBytes_full (hn : 0 < n) (h : (readiBytes file off n).length = n) :
    off + n ≤ file.length ∧ readiBytes file off n = (file.drop off).take n := by
  unfold readiBytes at h ⊢
  split_ifs at h ⊢ with hc
  · rw [List.length_nil] at h
    omega
  · rw [List.length_take, List.length_drop] at h
    exact ⟨by omega, rfl⟩

theorem HeadersOk.inside (hlen : file.length < 2^32) (n : Nat) : ∀ off, off < 2^32 →
    HeadersOk file n off → ∀ i < n, off + i*PROGHDR_SIZE + PROGHDR_SIZE ≤ file.length ∧
      ((ProgHdr.ofBytes (bytesOf ((file.drop (off + i*PROGHDR_SIZE)).take PROGHDR_SIZE))).type =
          ELF_PROG_LOAD →
        SegmentOk file (ProgHdr.ofBytes
          (bytesOf ((file.drop (off + i*PROGHDR_SIZE)).take PROGHDR_SIZE)))) := by
  induction n with
  | zero => exact fun off _ _ i hi => absurd hi (by omega)
  | succ n ih =>
    intro off hoff h i hi
    obtain ⟨hdata, hseg, hrest⟩ := h
    obtain ⟨hin, heq⟩ := readiBytes_full (by decide) hdata
    unfold phdrAt at hseg
    rw [heq] at hseg
    cases i with
    | zero =>
      rw [Nat.zero_mul, Nat.add_zero]
      exact ⟨hin, hseg⟩
    | succ i =>
      rw [Nat.mod_eq_of_lt (by omega)] at hrest
      have hi' := ih (off+PROGHDR_SIZE) (by omega) hrest i (by omega)
      have hadd : off + PROGHDR_SIZE + i*PROGHDR_SIZE = off + (i+1)*PROGHDR_SIZE := by
        rw [Nat.succ_mul]
        omega
      rwa [hadd] at hi'

theorem SegmentRead.inside {sz : Nat} (hlen : file.length < 2^32) (hoff : off < 2^32)
    (h : SegmentRead file off sz) (i : Nat) (hi : i*PGSIZE < sz) :
    off + min sz ((i+1)*PGSIZE) ≤ file.length := by
  have hp : 0 < PGSIZE := by decide
  induction i with
  | zero =>
    have hr := h 0 hi
    rw [PieceRead, Nat.zero_mul, Nat.add_zero, Nat.sub_zero, Nat.mod_eq_of_lt hoff] at hr
    have hin := (readiBytes_full (by omega) hr).1
    rwa [Nat.zero_add, Nat.one_mul]
  | succ i ih =>
    have hprev := ih (by rw [Nat.succ_mul] at hi; omega)
    rw [min_eq_right (by omega)] at hprev
    have hr := h (i+1) hi
    rw [PieceRead, Nat.mod_eq_of_lt (by omega)] at hr
    have hin := (readiBytes_full (by omega) hr).1
    rw [Nat.succ_mul (i+1)]
    omega

theorem SegmentRead.end_le {sz : Nat} (hlen : file.length < 2^32) (hoff : off < 2^32)
    (h : SegmentRead file off sz) (hsz : 0 < sz) : off + sz ≤ file.length := by
  have hp : PGSIZE = 4096 := rfl
  have hlast := h.inside hlen hoff ((sz-1)/PGSIZE) (by rw [hp]; omega)
  rw [min_eq_left (by rw [hp]; omega)] at hlast
  exact hlast

end Read

/-- The conversion to `uint` leaves the fields that are used alone. No read checks the offset
of a segment without bytes in the file. -/
structure FieldsKept (file : List UInt8) : Prop where
  phoff : 0 < (elfHdr file).phnum → (elfHdr file).phoff < 2^32
  off : ∀ i < (elfHdr file).phnum, (progHdr file i).type = ELF_PROG_LOAD →
    0 < (progHdr file i).filesz → (progHdr file i).off < 2^32
  empty : ∀ i < (elfHdr file).phnum, (progHdr file i).type = ELF_PROG_LOAD →
    (progHdr file i).filesz = 0 → (progHdr file i).off ≤ file.length

/-- The headers of an accepted file, when their offset is not cut. -/
theorem ExecOk.header {file : List UInt8} {args : List (List UInt8)} (h : ExecOk file args)
    (hlen : file.length < 2^32) (hph : (elfHdr file).phoff < 2^32) {i : Nat}
    (hi : i < (elfHdr file).phnum) :
    (elfHdr file).phoff + i*PROGHDR_SIZE + PROGHDR_SIZE ≤ file.length ∧
      ((progHdr file i).type = ELF_PROG_LOAD → SegmentOk file (progHdr file i)) := by
  have hh := h.headers
  change HeadersOk file (elfHdr file).phnum ((elfHdr file).phoff % 2^32) at hh
  rw [Nat.mod_eq_of_lt hph] at hh
  exact hh.inside hlen _ _ hph i hi

theorem SegmentOk.end_le {file : List UInt8} {ph : ProgHdr} (h : SegmentOk file ph)
    (hlen : file.length < 2^32) (hoff : ph.off < 2^32) (hpos : 0 < ph.filesz) :
    ph.off + ph.filesz ≤ file.length := by
  have h1 := h.filesz
  have h2 := h.fits
  have hread := h.read
  rw [Nat.mod_eq_of_lt hoff, Nat.mod_eq_of_lt (show ph.filesz < 2^32 by omega)] at hread
  exact hread.end_le hlen hoff hpos

theorem InsideFile.fieldsKept {file : List UInt8} (h : InsideFile file)
    (hlen : file.length < 2^32) : FieldsKept file := by
  refine ⟨?_, ?_, ?_⟩
  · intro hpos
    have h0 := h.headers 0 hpos
    omega
  · intro i hi htype _
    have hi' := h.segments i hi htype
    omega
  · intro i hi htype _
    have hi' := h.segments i hi htype
    omega

theorem ExecOk.insideFile_iff {file : List UInt8} {args : List (List UInt8)}
    (h : ExecOk file args) (hlen : file.length < 2^32) : InsideFile file ↔ FieldsKept file := by
  refine ⟨fun hin => hin.fieldsKept hlen, fun hf => ⟨?_, ?_⟩⟩
  · intro i hi
    exact (h.header hlen (hf.phoff (Nat.zero_lt_of_lt hi)) hi).1
  · intro i hi htype
    have hseg := (h.header hlen (hf.phoff (Nat.zero_lt_of_lt hi)) hi).2 htype
    by_cases hz : (progHdr file i).filesz = 0
    · rw [hz, Nat.add_zero]
      exact hf.empty i hi htype hz
    · have hpos := Nat.pos_of_ne_zero hz
      exact hseg.end_le hlen (hf.off i hi htype hpos) hpos

variable [Layout]

/-- The headers of a file that `exec` accepts stay inside the file exactly when its fields are
such. The size of a file is a `uint`. The kernel holds the pages of the argument strings. -/
theorem exec_headers_inside {k0 k : Kernel} {p : Nat} (h : Reachable k0) (hk : KernelStep k0 k)
    (ha : k.active p) {file : List UInt8} (hlen : file.length < 2^32) {argv : List Nat}
    (hargv : argv ⊆ k.held) :
    Runs (exec (some file) p argv) k fun r _ =>
      r ≠ -1 → (InsideFile file ↔ FieldsKept file) := by
  refine (exec_spec hk.inv ha.1 (hk.pagetable_ne h ha) (some file)
    fun a ha => held_beside (hargv ha)).imp ?_
  rintro r k' ⟨-, ⟨hr, -⟩ | ⟨bytes, hbytes, hd⟩⟩
  · exact fun hc => absurd hr hc
  · intro _
    cases hbytes
    exact hd.ok.insideFile_iff hlen

/-- With enough memory `exec` runs a file that it accepts. -/
theorem exec_accepted {k0 k : Kernel} {p : Nat} (h : Reachable k0) (hk : KernelStep k0 k)
    (ha : k.active p) {file : List UInt8} {argv : List Nat} (hargv : argv ⊆ k.held)
    (hacc : ExecAccepts file (argStrings k.phys argv))
    (hfree : 3*npages (loadedImage file).2 + 11 < k.phys.freelist.length) :
    Runs (exec (some file) p argv) k fun r _ => r = argv.length := by
  refine (exec_spec hk.inv ha.1 (hk.pagetable_ne h ha) (some file)
    fun a ha => held_beside (hargv ha)).imp ?_
  rintro r k' ⟨-, ⟨-, -, hfew⟩ | ⟨bytes, -, hd⟩⟩
  · exact absurd (hfew file rfl hacc) (Nat.not_le.mpr hfree)
  · rw [hd.argc, argStrings, List.length_map]

/-- A file with one program header behind the ELF header. -/
def smallElf (phoff type off filesz memsz : Nat) : List UInt8 :=
  [0x7F, 0x45, 0x4C, 0x46] ++ List.replicate 28 0 ++ wordBytes phoff ++ List.replicate 16 0 ++
    [1, 0] ++ List.replicate 6 0 ++
    ([UInt8.ofNat type] ++ List.replicate 7 0 ++ wordBytes off ++ List.replicate 16 0 ++
      wordBytes filesz ++ wordBytes memsz ++ List.replicate 8 0)

omit [Layout] in
/-- The checks of `exec` for a file with one program header at `off`. -/
theorem ExecAccepts.of_small {file : List UInt8} {args : List (List UInt8)} (off sz : Nat)
    (hnum : (elfHdr file).phnum = 1) (hoff : (elfHdr file).phoff % 2^32 = off)
    (hsz : (loadedImage file).2 = sz) (hmax : sz < 2^32)
    (hstack : StackOk ((npages sz + 2)*PGSIZE) args)
    (hdata : (readiBytes file off PROGHDR_SIZE).length = PROGHDR_SIZE)
    (hseg : (phdrAt file off).type = ELF_PROG_LOAD →
      SegmentOk file (phdrAt file off) ∧ 0 < (phdrAt file off).memsz)
    (header : (readiBytes file 0 ELFHDR_SIZE).length = ELFHDR_SIZE)
    (magic : (elfHdr file).magic = ELF_MAGIC) : ExecAccepts file args := by
  subst hsz
  refine ⟨⟨by rw [execImage_eq args hmax]; exact hstack, ?_⟩, header, magic, ?_⟩
  · rw [hnum, hoff]
    exact ⟨hdata, fun ht => (hseg ht).1, trivial⟩
  · rw [hnum, hoff]
    exact ⟨fun ht => (hseg ht).2, trivial⟩

/-- A segment of 16 bytes with 8 bytes in the file. -/
def sampleElf : List UInt8 := smallElf 64 1 64 8 16

omit [Layout] in
theorem sampleElf_accepts {args : List (List UInt8)} (h : StackOk (3*PGSIZE) args) :
    ExecAccepts sampleElf args := by
  have hsz : (phdrAt sampleElf 64).filesz % 2^32 = 8 := by decide +kernel
  have hread : SegmentRead sampleElf ((phdrAt sampleElf 64).off % 2^32)
      ((phdrAt sampleElf 64).filesz % 2^32) := by
    intro i hi
    have hi0 : i = 0 := by
      rw [hsz, PGSIZE] at hi
      omega
    rw [hi0]
    unfold PieceRead
    decide +kernel
  refine ExecAccepts.of_small 64 16 ?_ ?_ ?_ ?_ h ?_ (fun _ => ⟨⟨?_, ?_, ?_, hread⟩, ?_⟩)
    ?_ ?_ <;> decide +kernel

omit [Layout] in
theorem exec_headers_inside_sample : ∃ (_ : Layout) (k : Kernel) (p : Nat), Reachable k ∧
    k.active p ∧ Runs (exec (some sampleElf) p []) k fun r _ => r = 0 ∧
      (InsideFile sampleElf ↔ FieldsKept sampleElf) := by
  let _ := sampleLayout
  obtain ⟨k, hb, hk⟩ := exists_booted
  have hr := Reachable.boot hb
  have hfree := hk.free
  have hpages : npages (loadedImage sampleElf).2 = 1 := by decide +kernel
  have hacc : ExecAccepts sampleElf [] :=
    sampleElf_accepts ⟨by decide, by decide, by decide +kernel, by decide⟩
  have hrun := exec_accepted hr (KernelStep.refl hk.inv) hk.active (List.nil_subset _) hacc
    (by omega)
  obtain ⟨r, k', he, hiff⟩ := exec_headers_inside hr (KernelStep.refl hk.inv) hk.active
    (show sampleElf.length < 2^32 by decide +kernel) (List.nil_subset _)
  have h0 : r = 0 := hrun.of_eq he
  exact ⟨_, k, k.initproc, hr, hk.active, r, k', he, h0, hiff (by rw [h0]; decide)⟩

omit [Layout] in
/-- The headers of this file start behind its end, by 2^32 bytes. `exec` runs it. -/
theorem exec_wraps_phoff : ∃ (_ : Layout) (k : Kernel) (p : Nat), Reachable k ∧ k.active p ∧
    Runs (exec (some (smallElf (2^32+64) 0 0 0 0)) p []) k (fun r _ => r = 0) ∧
    (smallElf (2^32+64) 0 0 0 0).length = 120 ∧ ¬ InsideFile (smallElf (2^32+64) 0 0 0 0) := by
  let _ := sampleLayout
  obtain ⟨k, hb, hk⟩ := exists_booted
  have hfree := hk.free
  have hpages : npages (loadedImage (smallElf (2^32+64) 0 0 0 0)).2 = 0 := by decide +kernel
  have htype : (phdrAt (smallElf (2^32+64) 0 0 0 0) 64).type ≠ ELF_PROG_LOAD := by decide +kernel
  have hstack : StackOk (2*PGSIZE) [] := ⟨by decide, by decide, by decide +kernel, by decide⟩
  have hacc : ExecAccepts (smallElf (2^32+64) 0 0 0 0) [] := by
    refine ExecAccepts.of_small 64 0 ?_ ?_ ?_ ?_ hstack ?_ (fun ht => absurd ht htype)
      ?_ ?_ <;> decide +kernel
  refine ⟨_, k, k.initproc, Reachable.boot hb, hk.active, ?_, by decide, ?_⟩
  · exact exec_accepted (Reachable.boot hb) (KernelStep.refl hk.inv) hk.active
      (List.nil_subset _) hacc (by omega)
  · intro hin
    have hoff : (elfHdr (smallElf (2^32+64) 0 0 0 0)).phoff = 2^32+64 := by decide +kernel
    have hlen : (smallElf (2^32+64) 0 0 0 0).length = 120 := by decide
    have h0 := hin.headers 0 (by decide +kernel)
    rw [hoff, hlen] at h0
    omega

end Xv6
