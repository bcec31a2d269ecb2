import Xv6.ProcTable

/-! User code reading and writing its memory: the translation the hardware makes,
and the page faults that go through `usertrap`. -/
namespace Xv6

inductive Access
  | load | store
  deriving DecidableEq

/-- The permission bits the hardware asks for. -/
def Pte.permits (w : Pte) : Access → Bool
  | .load => w.has PTE_V && w.has PTE_U && w.has PTE_R
  | .store => w.has PTE_V && w.has PTE_U && w.has PTE_W

/-- The entry the hardware finds for `va`: the bits above the 39th have to agree. -/
def hwEntry (m : Nat → Bytes) (pagetable va : Nat) : Pte :=
  if va < MAXVA ∨ 2^64-MAXVA ≤ va ∧ va < 2^64 then pteAt m 2 pagetable (va % VASIZE) else 0

def Kernel.entry (k : Kernel) (p va : Nat) : Pte :=
  hwEntry k.phys.mem (k.proc p).pagetable va

def Kernel.load (k : Kernel) (p va : Nat) : Option UInt8 :=
  if (k.entry p va).permits .load then
    some (k.phys.mem (PTE2PA (k.entry p va)) (va%PGSIZE))
  else none

def writeByte (p va : Nat) (b : UInt8) : Prog Kernel Unit := do
  let k ← get
  let pa := PTE2PA (k.entry p va)
  inPhys (modify fun s => s.setPage pa (blit (s.mem pa) (va%PGSIZE) [b]))

section
variable [Layout]

def copyoutTo (p dstva : Nat) (src : List UInt8) : Prog Kernel Int := do
  let k ← get
  inPhys (copyout (k.proc p).pagetable (k.proc p).sz (k.proc p).pagetable dstva src)

def userLoad (p va : Nat) : Prog Kernel Unit := do
  let k ← get
  if (k.entry p va).permits .load then pure () else usertrap p va

def userStore (p va : Nat) (b : UInt8) : Prog Kernel Unit := do
  let k ← get
  if (k.entry p va).permits .store then writeByte p va b else
  usertrap p va
  let k ← get
  if (k.proc p).alive ∧ (k.entry p va).permits .store then writeByte p va b else pure ()

end

def Kernel.userByte (k : Kernel) (p va : Nat) : Prop :=
  (k.entry p va).has PTE_V = true ∧ (k.entry p va).has PTE_U = true

/-- Loads and stores in memory that belongs to the process alone. -/
def UserMem.load (m : UserMem) (va : Nat) : Option UInt8 :=
  if m.userByte va then some (m.page (va/PGSIZE) (va%PGSIZE)) else none

def UserMem.store (m : UserMem) (va : Nat) (b : UInt8) : UserMem :=
  if m.userByte va then m.write (va/PGSIZE) (va%PGSIZE) [b] else m

theorem walk_panics {pt va : Nat} {alloc : Bool} {s : Phys} (h : MAXVA ≤ va) :
    walk pt va alloc s = .error "walk" := panics_bind (panicIf_panics h)

theorem page_of_userByte {k : Kernel} {p va : Nat} (h : (k.umem p).userByte va) :
    va/PGSIZE < npages (k.proc p).sz := by
  have hu := h.2
  simp only [Kernel.umem, userMem, Bool.and_eq_true, decide_eq_true_eq] at hu
  exact hu.1

variable [Layout]

section Entry
variable {k : Kernel} {p : Nat}

omit [Layout] in
theorem entry_low (k : Kernel) (p : Nat) {va : Nat} (h : va < MAXVA) :
    k.entry p va = k.map p (va/PGSIZE) := by
  have hle : MAXVA ≤ VASIZE := by decide
  unfold Kernel.entry hwEntry Kernel.map
  rw [if_pos (Or.inl h), Nat.mod_eq_of_lt (by omega)]
  exact pteAt_of_same_page (page_div _).symm

theorem entry_high (h : Inv k) (hp : p ∈ procs) (hpt : (k.proc p).pagetable ≠ 0) {va : Nat}
    (hva : MAXVA ≤ va) : k.entry p va = 0 := by
  unfold Kernel.entry hwEntry
  split_ifs with hc
  · have hlow : ¬ va < MAXVA := by omega
    obtain ⟨h1, h2⟩ := hc.resolve_left hlow
    have hM : 2*MAXVA = VASIZE := by decide
    have hV : VASIZE = 2*VPAGES*PGSIZE := by decide
    have hM' : MAXVA = VPAGES*PGSIZE := by decide
    have h64 : 2^64 = VASIZE*2^25 := by decide
    -- The residue lies in the upper half of what three indices address.
    have hr1 : MAXVA ≤ va % VASIZE := by
      have hlt : 2^64 - VASIZE ≤ va := by omega
      have hmod : va % VASIZE = va - (2^64 - VASIZE) := by
        have he : va = (va - (2^64 - VASIZE)) + VASIZE*(2^25-1) := by
          have : VASIZE*(2^25-1) = 2^64 - VASIZE := by decide
          omega
        conv_lhs => rw [he]
        rw [Nat.add_mul_mod_self_left, Nat.mod_eq_of_lt (by omega)]
      omega
    have hr2 : va % VASIZE < VASIZE := Nat.mod_lt _ (by decide)
    have hpg1 : VPAGES ≤ va % VASIZE / PGSIZE := by
      rw [Nat.le_div_iff_mul_le (by decide)]
      omega
    have hpg2 : va % VASIZE / PGSIZE < 2*VPAGES := by
      rw [Nat.div_lt_iff_lt_mul (by decide)]
      omega
    have htop := ((h.space p hp).map hpt).top _ hpg1 hpg2
    rw [← htop]
    exact pteAt_of_same_page (page_div _).symm
  · rfl

/-- The pages that are mapped for the user are those of the process's memory. -/
theorem userByte_iff (h : Inv k) (hp : p ∈ procs) (hpt : (k.proc p).pagetable ≠ 0) (va : Nat) :
    k.userByte p va ↔ (k.umem p).userByte va := by
  have hmap := (h.space p hp).map hpt
  unfold Kernel.userByte UserMem.userByte
  by_cases hva : va < MAXVA
  · have hvV := page_lt_iff.mpr hva
    rw [entry_low k p hva]
    simp only [Kernel.umem, userMem, Bool.and_eq_true, decide_eq_true_eq]
    by_cases hn : va/PGSIZE < npages (k.proc p).sz
    · simp [(hmap.user _ hn).v, hva, hn]
    · have hU := (hmap.above (by omega) (show va/PGSIZE < 2*VPAGES by omega)).1
      simp [hU]
  · rw [entry_high h hp hpt (by omega)]
    exact iff_of_false (by decide) fun hc => hva hc.1

theorem permits_iff (h : Inv k) (hp : p ∈ procs) (hpt : (k.proc p).pagetable ≠ 0) (va : Nat)
    (a : Access) : (k.entry p va).permits a = true ↔ (k.umem p).userByte va ∧
      (a = .store → (k.map p (va/PGSIZE)).has PTE_W = true) := by
  rw [← userByte_iff h hp hpt va]
  by_cases hb : k.userByte p va
  · obtain ⟨hva, hu⟩ := (userByte_iff h hp hpt va).mp hb
    have hR : (k.entry p va).has PTE_R = true := by
      rw [entry_low k p hva]
      exact (((h.space p hp).map hpt).user _ (page_of_userByte ⟨hva, hu⟩)).r
    rw [← entry_low k p hva]
    cases a with
    | load => simp [Pte.permits, hb.1, hb.2, hR, hb]
    | store => simp [Pte.permits, hb.1, hb.2, hb]
  · refine iff_of_false (fun hc => hb ?_) fun hc => hb hc.1
    cases a with
    | load =>
      simp only [Pte.permits, Bool.and_eq_true] at hc
      exact hc.1
    | store =>
      simp only [Pte.permits, Bool.and_eq_true] at hc
      exact hc.1

theorem load_eq (h : Inv k) (hp : p ∈ procs) (hpt : (k.proc p).pagetable ≠ 0) (va : Nat) :
    k.load p va = (k.umem p).load va := by
  have hiff := permits_iff h hp hpt va .load
  unfold Kernel.load UserMem.load
  by_cases hc : (k.umem p).userByte va
  · have hn := page_of_userByte hc
    rw [if_pos (hiff.mpr ⟨hc, fun he => by cases he⟩), if_pos hc, entry_low k p hc.1]
    simp only [Kernel.umem, userMem]
    rw [if_pos hn]
  · rw [if_neg fun hp => hc (hiff.mp hp).1, if_neg hc]

end Entry

section Traps
variable {k : Kernel} {p va : Nat}

/-- What `usertrap` does with a page fault. -/
def Trapped (k k' : Kernel) (p va : Nat) : Prop :=
  ∃ k1, Faulted k k1 p (va/PGSIZE) ∧
    ((k1.proc p).killed = false ∧ k' = k1 ∨ (k1.proc p).killed = true ∧ Exited k1 k' p (-1))

theorem usertrapFault_panics (h : MAXVA ≤ va) : usertrapFault p va k = .error "walk" :=
  panics_get (panics_bind (zoom_panics (panics_bind (walk_panics h))))

theorem usertrap_ends (h : Inv k) (hp : p ∈ procs) (hpt : (k.proc p).pagetable ≠ 0) :
    Ends (usertrap p va) k fun _ k' => Trapped k k' p va ∧ va < MAXVA := by
  by_cases hva : va < MAXVA
  · apply ends_bind
    refine (usertrapFault_spec h hp hpt hva).ends.imp ?_
    intro _ k1 h1
    apply ends_get
    by_cases hk : (k1.proc p).killed = true
    · rw [if_pos hk]
      exact (exit_ends h1.step.inv (-1)).imp fun _ k' hk' => ⟨⟨k1, h1, Or.inr ⟨hk, hk'⟩⟩, hva⟩
    · rw [if_neg hk]
      exact ends_pure ⟨⟨k1, h1, Or.inl ⟨by simpa using hk, rfl⟩⟩, hva⟩
  · exact ends_of_panic (panics_bind (usertrapFault_panics (by omega)))

theorem userLoad_ends (h : Inv k) (hp : p ∈ procs) (hpt : (k.proc p).pagetable ≠ 0) :
    Ends (userLoad p va) k fun _ k' => k' = k ∨ Trapped k k' p va ∧ va < MAXVA := by
  apply ends_get
  by_cases hc : (k.entry p va).permits .load = true
  · rw [if_pos hc]
    exact ends_pure (Or.inl rfl)
  · rw [if_neg hc]
    exact (usertrap_ends h hp hpt).imp fun _ k' hk' => Or.inr hk'

/-- A permitted store changes one byte of the process's own page. -/
theorem writeByte_spec (h : Inv k) (hp : p ∈ procs) (hpt : (k.proc p).pagetable ≠ 0) (b : UInt8)
    (hc : (k.entry p va).permits .store = true) :
    Runs (writeByte p va b) k fun _ k' => StepOf k k' p ((k.umem p).store va b) ∧
      k'.proc = k.proc := by
  obtain ⟨⟨hva, hu⟩, hw⟩ := (permits_iff h hp hpt va .store).mp hc
  have hW := hw rfl
  have hown := h.own hp hpt
  have hv := page_of_userByte ⟨hva, hu⟩
  obtain ⟨hown', hmem⟩ := hown.write_page hv (va%PGSIZE) [b]
  unfold writeByte
  rw [runs_bind, runs_get]
  simp only [runs_inPhys, runs_modify]
  rw [entry_low k p hva]
  set s := k.phys.setPage (PTE2PA (k.map p (va/PGSIZE)))
    (blit (k.phys.mem (PTE2PA (k.map p (va/PGSIZE)))) (va%PGSIZE) [b]) with hs
  refine ⟨?_, trivial⟩
  rw [← put_self (p := p), UserMem.store, if_pos ⟨hva, hu⟩]
  exact h.step_put hp hpt (k.proc p) rfl rfl hown' hmem (hown.write_frame hv hW _)
    fun _ hpa _ => hpa

def Stored (k k' : Kernel) (p va : Nat) (b : UInt8) : Prop :=
  (k.entry p va).permits .store = true ∧ StepOf k k' p ((k.umem p).store va b) ∧ k'.proc = k.proc

/-- A store that faults: the process exits, or tries once more. -/
def StoreFault (k k' : Kernel) (p va : Nat) (b : UInt8) : Prop :=
  (k.entry p va).permits .store = false ∧ va < MAXVA ∧ ∃ k1, Faulted k k1 p (va/PGSIZE) ∧
    ((k1.proc p).killed = true ∧ Exited k1 k' p (-1) ∨
      (k1.proc p).killed = false ∧ Stored k1 k' p va b ∨
      (k1.proc p).killed = false ∧ k' = k1 ∧
        ((k.proc p).alive → (k1.entry p va).permits .store = false))

theorem userStore_ends (h : Inv k) (hp : p ∈ procs) (hpt : (k.proc p).pagetable ≠ 0) (b : UInt8) :
    Ends (userStore p va b) k fun _ k' => Stored k k' p va b ∨ StoreFault k k' p va b := by
  apply ends_get
  by_cases hc : (k.entry p va).permits .store = true
  · rw [if_pos hc]
    exact (writeByte_spec h hp hpt b hc).ends.imp fun _ k' hk' => Or.inl ⟨hc, hk'⟩
  rw [if_neg hc]
  have hc' : (k.entry p va).permits .store = false := by simpa using hc
  refine (usertrap_ends h hp hpt).bind ?_
  rintro _ k2 ⟨⟨k1, h1, hk⟩, hva⟩
  have halive : (k1.proc p).alive ↔ (k.proc p).alive := by
    rw [h1.proc]
    rfl
  have hpt1 : (k1.proc p).pagetable ≠ 0 := by
    rw [h1.proc]
    exact hpt
  apply ends_get
  rcases hk with ⟨hk, rfl⟩ | ⟨hk, hex⟩
  · by_cases hr : (k2.proc p).alive ∧ (k2.entry p va).permits .store = true
    · rw [if_pos hr]
      exact (writeByte_spec h1.step.inv hp hpt1 b hr.2).ends.imp fun _ k' hk' =>
        Or.inr ⟨hc', hva, k2, h1, Or.inr (Or.inl ⟨hk, hr.2, hk'⟩)⟩
    · rw [if_neg hr]
      refine ends_pure (Or.inr ⟨hc', hva, k2, h1, Or.inr (Or.inr ⟨hk, rfl, fun ha => ?_⟩)⟩)
      simpa using fun hp => hr ⟨halive.mpr ha, hp⟩
  · have hz : ¬ ((k2.proc p).alive ∧ (k2.entry p va).permits .store = true) := by
      rintro ⟨ha, -⟩
      apply ha.2
      rw [hex.proc p]
      exact if_pos rfl
    rw [if_neg hz]
    exact ends_pure (Or.inr ⟨hc', hva, k1, h1, Or.inl ⟨hk, hex⟩⟩)

end Traps

section Copyout
variable {k : Kernel} {p dstva : Nat} {src : List UInt8}

omit [Layout] in
theorem should_copyon_write_panics {mypt mysz va : Nat} {s : Phys} (h : MAXVA ≤ va) :
    should_copyon_write mypt mysz va s = .error "walk" := panics_bind (walk_panics h)

/-- The check for copy-on-write comes before any check of the address. -/
theorem copyout_panics {mypt mysz pt : Nat} {s : Phys} (hsrc : src ≠ []) (h : MAXVA ≤ dstva) :
    copyout mypt mysz pt dstva src s = .error "walk" := by
  obtain ⟨b, t, rfl⟩ := List.exists_cons_of_ne_nil hsrc
  unfold copyout
  rw [List.length_cons, copyoutLoop, if_neg (by simp)]
  exact panics_bind (should_copyon_write_panics h)

theorem copyoutTo_spec (h : Inv k) (hp : p ∈ procs) (hpt : (k.proc p).pagetable ≠ 0)
    (hva : src ≠ [] → dstva < MAXVA) :
    Runs (copyoutTo p dstva src) k fun r k' => Written k k' p dstva src r := by
  unfold copyoutTo
  rw [runs_bind, runs_get]
  exact copyout_spec h hp hpt hva

theorem copyoutTo_panics (hsrc : src ≠ []) (h : MAXVA ≤ dstva) :
    copyoutTo p dstva src k = .error "walk" :=
  panics_get (zoom_panics (copyout_panics hsrc h))

theorem copyoutTo_ends (h : Inv k) (hp : p ∈ procs) (hpt : (k.proc p).pagetable ≠ 0) :
    Ends (copyoutTo p dstva src) k fun r k' => Written k k' p dstva src r := by
  by_cases hva : src ≠ [] → dstva < MAXVA
  · exact (copyoutTo_spec h hp hpt hva).ends
  · push Not at hva
    exact ends_of_panic (copyoutTo_panics hva.1 hva.2)

/-- The status of the child goes through `copyout`, which panics at this address. -/
theorem wait_panics {np addr : Nat} (hf : k.zombieOf p = some np) (h : MAXVA ≤ addr) :
    wait p addr k = .error "walk" := by
  have hna : addr ≠ 0 := by
    have hM : 0 < MAXVA := by decide
    omega
  have hsrc : intBytes (k.proc np).xstate ≠ [] := by
    apply List.ne_nil_of_length_pos
    simp [intBytes]
  unfold wait
  apply panics_get
  unfold Kernel.zombieOf at hf
  rw [hf]
  dsimp only
  rw [if_pos hna]
  exact panics_bind (zoom_panics (copyout_panics hsrc h))

theorem wait_ends (h : Inv k) (hs : Settled k) (hp : p ∈ procs) (ha : (k.proc p).alive)
    (addr : Nat) : Ends (wait p addr) k fun r k' => Waited k k' p addr r := by
  by_cases haddr : (k.zombieOf p).isSome = true → addr < MAXVA
  · exact (wait_spec h hs hp ha haddr).ends
  push Not at haddr
  obtain ⟨np, hf⟩ := Option.isSome_iff_exists.mp haddr.1
  exact ends_of_panic (wait_panics hf haddr.2)

end Copyout

end Xv6
