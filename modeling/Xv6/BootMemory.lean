import Xv6.Boot
import Xv6.ProcTable

/-! Boot as far as `procinit`: the free list after `kinit`, and the kernel's page
table with the stacks of all processes. Memory never runs out on the way. -/
namespace Xv6

open Function

def mapRange (f : Nat → Pte) (v n pa : Nat) (perm : Pte) : Nat → Pte := fun k =>
  if v ≤ k ∧ k < v+n then mapWord (pa + (k-v)*PGSIZE) perm else f k

theorem mapRange_zero (f : Nat → Pte) (v pa : Nat) (perm : Pte) : mapRange f v 0 pa perm = f := by
  funext k
  unfold mapRange
  rw [if_neg (by omega)]

theorem mapRange_succ (f : Nat → Pte) (v n pa : Nat) (perm : Pte) :
    mapRange (update f v (mapWord pa perm)) (v+1) n (pa+PGSIZE) perm =
      mapRange f v (n+1) pa perm := by
  funext k
  unfold mapRange
  by_cases hk : k = v
  · subst hk
    rw [if_neg (by omega), if_pos (by omega), update_self, Nat.sub_self, Nat.zero_mul,
      Nat.add_zero]
  · rw [update_of_ne hk]
    by_cases hin : v ≤ k ∧ k < v+(n+1)
    · rw [if_pos (by omega), if_pos hin]
      have he : pa + PGSIZE + (k-(v+1))*PGSIZE = pa + (k-v)*PGSIZE := by
        rw [show k-v = (k-(v+1))+1 by omega, Nat.succ_mul]
        omega
      rw [he]
    · rw [if_neg (by omega), if_neg hin]

theorem mapRange_of_not {f : Nat → Pte} {v n pa k : Nat} {perm : Pte} (h : ¬ (v ≤ k ∧ k < v+n)) :
    mapRange f v n pa perm k = f k := if_neg h

/-- How many table pages a range of `n` pages at page `v` can need: two for every
page-table page of the last level that it meets. -/
def tableCost (v n : Nat) : Nat := if n = 0 then 0 else 2*((v%512+n+511)/512)

theorem tableCost_step (v n : Nat) :
    tableCost v (n+1) = tableCost (v+1) n + if (v+1)%512 = 0 ∨ n = 0 then 2 else 0 := by
  have hmod : (v+1)%512 = 0 ∧ v%512 = 511 ∨ (v+1)%512 = v%512+1 := by omega
  unfold tableCost
  rcases hmod with ⟨h1, h2⟩ | h1
  · rw [h1, h2]
    split_ifs <;> omega
  · have hlt := Nat.mod_lt (v+1) (show 0 < 512 by decide)
    rw [h1] at hlt ⊢
    rw [show v%512 + 1 + n = v%512 + (n+1) by omega, if_neg (Nat.succ_ne_zero n)]
    by_cases hn : n = 0
    · rw [if_pos hn, if_pos (Or.inr hn)]
      omega
    · rw [if_neg hn, if_neg (by omega)]
      rfl

variable [Layout]

section Range
variable {pt : Nat} {F U : List Nat} {perm : Pte}

/-- `mappages` of a range of pages that are not valid. If a table page cannot be
allocated, the pages before it are mapped. -/
theorem mappagesLoop_spec (n : Nat) : ∀ (s : Phys) (v pa : Nat) (f : Nat → Pte),
    Maps s pt f F U → v+n ≤ VPAGES → (∀ k, v ≤ k → k < v+n → (f k).has PTE_V = false) →
    Runs (mappagesLoop pt perm n (v*PGSIZE) pa) s fun r s' =>
      s.freelist.length ≤ s'.freelist.length + tableCost v n ∧
      (0 < n → (∃ slot, lookup s.mem 2 pt (v*PGSIZE) = some slot) →
        s.freelist.length + 2 ≤ s'.freelist.length + tableCost v n) ∧
      ∃ i, Maps s' pt (mapRange f v i pa perm) F U ∧
        (r = 0 ∧ i = n ∨ r = -1 ∧ i < n ∧ s'.freelist = []) := by
  induction n with
  | zero =>
    intro s v pa f h _ _
    refine (runs_pure _).mpr ⟨by omega, fun hc => absurd hc (by omega), 0, ?_, Or.inl ⟨rfl, rfl⟩⟩
    rw [mapRange_zero]
    exact h
  | succ n ih =>
    intro s v pa f h hv hz
    have hstep := tableCost_step v n
    unfold mappagesLoop
    refine (walk_alloc_spec (page_lt_MAXVA (by omega)) h.ledger h.linked).bind ?_
    intro r s1 hw
    have hused := hw.used
    have h1 : Maps s1 pt f F U := ⟨hw.ledger, hw.linked, fun k hk => (hw.pte _).trans (h.pte k hk)⟩
    have hsame : (∃ slot, lookup s.mem 2 pt (v*PGSIZE) = some slot) → s1 = s := by
      rintro ⟨slot, hs⟩
      exact (hw.same slot hs).2
    cases r with
    | none =>
      refine (runs_pure _).mpr ⟨?_, fun _ hs => ?_, 0, by rw [mapRange_zero]; exact h1,
        Or.inr ⟨rfl, Nat.succ_pos n, hw.out rfl⟩⟩
      · have hpos : 2 ≤ tableCost v (n+1) := by
          unfold tableCost
          rw [if_neg (by omega)]
          omega
        omega
      · obtain ⟨slot, hs⟩ := hs
        cases (hw.same slot hs).1
    | some slot =>
      have hl := hw.found slot rfl
      have hload := h1.load_slot (by omega) hl
      simp only [runs_bind, runs_get, runs_panicIf, storePte, runs_modify, hload]
      refine ⟨by simp [hz v le_rfl (by omega)], ?_⟩
      obtain ⟨h2, -, hlk⟩ := h1.store (by omega) (PA2PTE pa ||| perm ||| PTE_V) hl
      rw [← Nat.succ_mul]
      refine (ih _ (v+1) (pa+PGSIZE) _ h2 (by omega) fun k hk1 hk2 => ?_).imp ?_
      · rw [update_of_ne (by omega)]
        exact hz k (by omega) (by omega)
      rintro r s2 ⟨hu1, hu2, i, hm, hr⟩
      have hm' : Maps s2 pt (mapRange f v (i+1) pa perm) F U := by
        rw [← mapRange_succ]
        exact hm
      have hu1' : s1.freelist.length ≤ s2.freelist.length + tableCost (v+1) n := hu1
      -- What the rest costs once the table of page `v` is there.
      have hrest : s1.freelist.length + 2 ≤ s2.freelist.length + tableCost v (n+1) := by
        by_cases hb : (v+1)%512 = 0 ∨ n = 0
        · rw [if_pos hb] at hstep
          omega
        · rw [if_neg hb] at hstep
          obtain ⟨slot', hs'⟩ := lookup_neighbour (show v/512 = (v+1)/512 by omega) hl
          have h3 : s1.freelist.length + 2 ≤ s2.freelist.length + tableCost (v+1) n :=
            hu2 (by omega) ⟨slot', by rw [hlk]; exact hs'⟩
          omega
      refine ⟨by omega, fun _ hs => ?_, i+1, hm', ?_⟩
      · rw [← hsame hs]
        exact hrest
      · rcases hr with ⟨h0, rfl⟩ | ⟨h1, hlt, hempty⟩
        · exact Or.inl ⟨h0, rfl⟩
        · exact Or.inr ⟨h1, by omega, hempty⟩

end Range

section Kinit

/-- The free list while `freerange` goes up to address `p`. -/
structure Freeing (s : Phys) (p : Nat) : Prop where
  ref_le : ∀ pa, s.ref pa ≤ 0
  nodup : s.freelist.Nodup
  mem_iff : ∀ pa, pa ∈ s.freelist ↔ Managed pa ∧ pa < p

theorem freerangeLoop_spec (n : Nat) : ∀ (s : Phys) (p : Nat), Freeing s p → p % PGSIZE = 0 →
    Layout.kend ≤ p → p + n*PGSIZE ≤ PHYSTOP →
    Runs (freerangeLoop p n) s fun _ s' => Freeing s' (p + n*PGSIZE) ∧
      s'.freelist.length = s.freelist.length + n := by
  have hp : PGSIZE = 4096 := rfl
  induction n with
  | zero =>
    intro s p h _ _ _
    exact (runs_pure _).mpr ⟨by rwa [Nat.zero_mul, Nat.add_zero], rfl⟩
  | succ n ih =>
    intro s p h hal hk htop
    rw [Nat.succ_mul] at htop
    have hman : Managed p := ⟨hal, hk, by omega⟩
    unfold freerangeLoop kfree
    simp only [runs_bind, runs_panicIf, runs_modify, runs_get, memsetPage, setRef_ref_self]
    refine ⟨by omega, ?_⟩
    have hle := h.ref_le p
    rw [if_pos (by omega)]
    simp only [runs_bind, runs_modify]
    have hstep : Freeing { s.setRef p (s.ref p - 1) with
        mem := update s.mem p fun _ => 1
        freelist := p :: s.freelist } (p+PGSIZE) := by
      refine ⟨fun pa => ?_, ?_, fun pa => ?_⟩
      · have hid : ∀ i, (s.setRef p (s.ref p - 1)).pageref i ≤ 0 := by
          intro i
          simp only [Phys.setRef]
          by_cases hi : i = PA2PAGE_ID p
          · subst hi
            rw [update_self]
            omega
          · rw [update_of_ne hi]
            have hrp := h.ref_le (KERNBASE + i*PGSIZE)
            have hpid : PA2PAGE_ID (KERNBASE + i*PGSIZE) = i := by
              unfold PA2PAGE_ID
              rw [Nat.add_sub_cancel_left, page_div]
            unfold Phys.ref at hrp
            rwa [hpid] at hrp
        exact hid (PA2PAGE_ID pa)
      · refine List.nodup_cons.mpr ⟨fun hin => ?_, h.nodup⟩
        exact absurd ((h.mem_iff p).mp hin).2 (lt_irrefl p)
      · rw [List.mem_cons, h.mem_iff]
        constructor
        · rintro (rfl | ⟨h1, h2⟩)
          · exact ⟨hman, by omega⟩
          · exact ⟨h1, by omega⟩
        · rintro ⟨h1, h2⟩
          have h3 := h1.1
          rw [hp] at hal h3 h2
          by_cases he : pa = p
          · exact Or.inl he
          · exact Or.inr ⟨h1, by omega⟩
    refine (ih _ (p+PGSIZE) hstep ?_ (by omega) ?_).imp ?_
    · rw [Nat.add_mod_right]
      exact hal
    · omega
    · rintro _ s' ⟨hfr, hlen⟩
      refine ⟨?_, ?_⟩
      · rw [Nat.succ_mul, show p + (n*PGSIZE + PGSIZE) = p + PGSIZE + n*PGSIZE by omega]
        exact hfr
      · rw [hlen]
        simp only [List.length_cons]
        omega

theorem kinit_spec (mem : Nat → Bytes) :
    Runs kinit (powerOn mem).phys fun _ s => Ledger s [] [] ∧ 1023 ≤ s.freelist.length := by
  have hp : PGSIZE = 4096 := rfl
  have hroom := Layout.room
  have htop : PHYSTOP = 0x88000*PGSIZE := by decide
  have hbig : PHYSTOP < 2^63 := by decide
  have hk : PGROUNDUP Layout.kend = npages Layout.kend * PGSIZE := PGROUNDUP_eq (by omega)
  have hn : Layout.kend ≤ npages Layout.kend * PGSIZE ∧
      npages Layout.kend * PGSIZE < Layout.kend + PGSIZE := by
    unfold npages
    rw [hp]
    omega
  have hlen : (PHYSTOP - PGROUNDUP Layout.kend)/PGSIZE = 0x88000 - npages Layout.kend := by
    rw [hk, htop, ← Nat.sub_mul, page_div]
  have hnk : npages Layout.kend ≤ 0x88000 - 1023 := by
    rw [htop, hp] at hroom
    rw [hp] at hn
    omega
  unfold kinit freerange
  rw [hlen, hk]
  have hstart : Freeing (powerOn mem).phys (npages Layout.kend * PGSIZE) := by
    refine ⟨fun _ => le_rfl, List.nodup_nil, fun pa => ?_⟩
    refine iff_of_false (List.not_mem_nil) ?_
    rintro ⟨⟨h1, h2, h3⟩, h4⟩
    rw [hp] at h1 hn h4
    omega
  refine (freerangeLoop_spec (0x88000 - npages Layout.kend) _ _ hstart (Nat.mul_mod_left _ _) hn.1
    (by rw [← Nat.add_mul, htop]; apply Nat.mul_le_mul_right; omega)).imp ?_
  rintro _ s ⟨hfr, hcount⟩
  have hend : npages Layout.kend * PGSIZE + (0x88000 - npages Layout.kend)*PGSIZE = PHYSTOP := by
    rw [← Nat.add_mul, htop]
    congr 1
    omega
  rw [hend] at hfr
  refine ⟨⟨by simp, fun pa hpa => ((hfr.mem_iff pa).mp hpa).1, List.nodup_nil, by simp,
    fun pa _ => ?_, hfr.nodup, fun pa hpa => ?_⟩, ?_⟩
  · rw [Int.toNat_of_nonpos (hfr.ref_le pa)]
    rfl
  · rw [hfr.mem_iff]
    simp [hpa, hpa.2.2]
  · rw [hcount]
    change 1023 ≤ 0 + _
    omega

end Kinit

/-- The kernel before there is a process: its page table maps `f`, and `F` are its
other pages. -/
structure Booting (k : Kernel) (f : Nat → Pte) (F : List Nat) (free : Nat) : Prop where
  maps : Maps k.phys k.kernel_pagetable f F []
  free : free ≤ k.phys.freelist.length
  proc : k.proc = fun _ => Proc.zero
  pipes : k.pipes = []
  held : k.held = []

section Kvm
variable {k : Kernel} {f : Nat → Pte} {F : List Nat} {free : Nat}

theorem kvmmap_spec {v n va sz : Nat} (pa : Nat) (perm : Pte) (h : Booting k f F free)
    (hva : va = v*PGSIZE) (hsz : sz = n*PGSIZE) (hn : 0 < n) (hv : v+n ≤ VPAGES)
    (hz : ∀ j, v ≤ j → j < v+n → f j = 0) (hc : tableCost v n < free) :
    Runs (kvmmap va pa sz perm) k fun _ k' => Booting k' (mapRange f v n pa perm) F
      (free - tableCost v n) ∧ k'.kstack = k.kstack := by
  have hp : PGSIZE = 4096 := rfl
  have hlast : PGROUNDDOWN (va+sz-1) = (v+(n-1))*PGSIZE := by
    unfold PGROUNDDOWN
    rw [hva, hsz, ← Nat.add_mul, show (v+n)*PGSIZE - 1 = (v+(n-1))*PGSIZE + (PGSIZE-1) by
      rw [show v+n = (v+(n-1))+1 by omega, Nat.succ_mul, hp]
      omega]
    rw [Nat.add_comm, Nat.add_mul_div_right _ _ (by decide), show (PGSIZE-1)/PGSIZE = 0 by decide,
      Nat.zero_add]
  have hfirst : PGROUNDDOWN va = v*PGSIZE := by
    unfold PGROUNDDOWN
    rw [hva, page_div]
  have hcount : ((v+(n-1))*PGSIZE - v*PGSIZE)/PGSIZE + 1 = n := by
    rw [← Nat.sub_mul, page_div]
    omega
  unfold kvmmap mappages
  dsimp only
  rw [hlast, hfirst, hcount, runs_bind, runs_get]
  simp only [runs_bind, runs_inPhys]
  refine (mappagesLoop_spec n _ v pa f h.maps hv fun i h1 h2 => by rw [hz i h1 h2]; decide).imp ?_
  rintro r s ⟨hused, -, i, hm, hr⟩
  have hfree := h.free
  have hok : r = 0 ∧ Maps s k.kernel_pagetable (mapRange f v n pa perm) F [] := by
    rcases hr with ⟨hr, rfl⟩ | ⟨-, -, hempty⟩
    · exact ⟨hr, hm⟩
    · rw [hempty, List.length_nil] at hused
      omega
  rw [runs_panicIf]
  exact ⟨fun hc => hc hok.1, ⟨hok.2, by
    change free - tableCost v n ≤ s.freelist.length
    omega, h.proc, h.pipes, h.held⟩, rfl⟩

theorem kvminitTable_spec (hl : Ledger k.phys [] []) (hfree : 1023 ≤ k.phys.freelist.length)
    (hproc : k.proc = fun _ => Proc.zero) (hpipes : k.pipes = []) (hheld : k.held = []) :
    Runs kvminitTable k fun _ k' => Booting k' (fun _ => 0) [] 1022 ∧ k'.kstack = k.kstack := by
  unfold kvminitTable
  simp only [runs_bind, runs_inPhys]
  refine (kalloc_spec hl).imp ?_
  intro r s hr
  cases r with
  | none =>
    rw [hr.2] at hfree
    exact absurd hfree (by decide)
  | some pt =>
    obtain ⟨hf, -, hl1⟩ := hr
    have hlen : k.phys.freelist.length = s.freelist.length + 1 := by rw [hf]; rfl
    simp only [memsetPage, runs_bind, runs_inPhys, runs_modify]
    have hz : (s.setPage pt fun _ => 0).mem pt = fun _ => 0 := by
      rw [setPage_mem, update_self]
    obtain ⟨ht, hL, hpte⟩ := zero_table hz
    refine ⟨⟨⟨?_, hL, fun v _ => hpte _⟩, ?_, hproc, hpipes, hheld⟩, trivial⟩
    · change Ledger (s.setPage pt fun _ => 0) (tables (s.setPage pt fun _ => 0).mem 2 pt ++ []) []
      rw [ht]
      exact hl1.of_mem _
    · change 1022 ≤ (s.setPage pt fun _ => 0).freelist.length
      rw [setPage_freelist]
      omega

theorem Booting.mono {free' : Nat} (h : Booting k f F free) (hle : free' ≤ free) :
    Booting k f F free' :=
  ⟨h.maps, hle.trans h.free, h.proc, h.pipes, h.held⟩

omit [Layout] in
theorem kernel_cost {q : Nat} (h1 : 0x80000 ≤ q) (h2 : q < 0x88000) :
    tableCost 0x80000 (q+1-0x80000) + tableCost (q+1) (0x88000-(q+1)) ≤ 130 := by
  unfold tableCost
  rw [if_neg (by omega)]
  split_ifs with hz
  · omega
  · have hmod : (q+1)%512 = (q+1-0x80000)%512 := by omega
    have hdiv := Nat.div_add_mod (q+1-0x80000) 512
    rw [hmod]
    omega

theorem kvminit_spec (hl : Ledger k.phys [] []) (hfree : 1023 ≤ k.phys.freelist.length)
    (hproc : k.proc = fun _ => Proc.zero) (hpipes : k.pipes = []) (hheld : k.held = []) :
    Runs kvminit k fun _ k' => k'.kstack = k.kstack ∧ ∃ f, Booting k' f [] 880 ∧
      ∀ j, 0x88000 ≤ j → j < VPAGES-1 → f j = 0 := by
  have hp : PGSIZE = 4096 := rfl
  have hV : VPAGES = 0x4000000 := by decide
  have htop : PHYSTOP = 0x88000*PGSIZE := by decide
  have hbase : KERNBASE = 0x80000*PGSIZE := by decide
  have hal := Layout.tramp_aligned
  have hge := Layout.tramp_ge
  have hend := Layout.etext_le
  have hroom := Layout.room
  -- The kernel's text ends with page `q`.
  obtain ⟨q, hq⟩ : ∃ q, Layout.trampoline = q*PGSIZE :=
    ⟨Layout.trampoline/PGSIZE, by have := Nat.div_add_mod' Layout.trampoline PGSIZE; omega⟩
  have hetext : Layout.etext = (q+1)*PGSIZE := by
    unfold Layout.etext
    rw [hq, Nat.succ_mul]
  have hq1 : 0x80000 ≤ q := by
    rw [hq, hbase] at hge
    exact Nat.le_of_mul_le_mul_right hge (by decide)
  have hq2 : q+1 < 0x88000 := by
    rw [hq, hp] at hend
    rw [htop, hp] at hroom
    omega
  have hcost := kernel_cost hq1 (by omega)
  have htext : Layout.etext - KERNBASE = (q+1-0x80000)*PGSIZE := by
    rw [hetext, hbase, ← Nat.sub_mul]
  have hdata : PHYSTOP - Layout.etext = (0x88000-(q+1))*PGSIZE := by
    rw [hetext, htop, ← Nat.sub_mul]
  unfold kvminit
  refine (kvminitTable_spec hl hfree hproc hpipes hheld).bind ?_
  rintro _ k0 ⟨h0, hk0⟩
  refine (kvmmap_spec (v := 0x10000) (n := 1) UART0 _ h0 (by decide) (by decide) (by decide)
    (by omega) (fun _ _ _ => rfl) (by decide)).bind ?_
  rintro _ k1 ⟨h1, hk1⟩
  refine (kvmmap_spec (v := 0x10001) (n := 1) VIRTIO0 _ h1 (by decide) (by decide) (by decide)
    (by omega) (fun j _ _ => by rw [mapRange_of_not (by omega)]) (by decide)).bind ?_
  rintro _ k2 ⟨h2, hk2⟩
  refine (kvmmap_spec (v := 0x2000) (n := 16) CLINT _ h2 (by decide) (by decide) (by decide)
    (by omega) (fun j _ _ => by simp (disch := omega) only [mapRange_of_not]) (by decide)).bind ?_
  rintro _ k3 ⟨h3, hk3⟩
  refine (kvmmap_spec (v := 0xc000) (n := 1024) PLIC _ h3 (by decide) (by decide) (by decide)
    (by omega) (fun j _ _ => by simp (disch := omega) only [mapRange_of_not]) (by decide)).bind ?_
  rintro _ k4 ⟨h4, hk4⟩
  have h4' := h4.mono (show 1012 ≤ _ by decide)
  refine (kvmmap_spec KERNBASE _ h4' hbase htext (by omega) (by omega) (fun j _ _ => by
    simp (disch := omega) only [mapRange_of_not]) (by omega)).bind ?_
  rintro _ k5 ⟨h5, hk5⟩
  refine (kvmmap_spec Layout.etext _ h5 hetext hdata (by omega) (by omega) (fun j _ _ => by
    simp (disch := omega) only [mapRange_of_not]) (by omega)).bind ?_
  rintro _ k6 ⟨h6, hk6⟩
  have h6' := h6.mono (show 882 ≤ _ by omega)
  refine (kvmmap_spec (v := VPAGES-1) (n := 1) Layout.trampoline _ h6' (by decide) (by decide)
    (by decide) (by omega) (fun j _ _ => by simp (disch := omega) only [mapRange_of_not])
    (by decide)).imp ?_
  rintro _ k7 ⟨h7, hk7⟩
  refine ⟨by rw [hk7, hk6, hk5, hk4, hk3, hk2, hk1, hk0], _, h7.mono (by decide), fun j hj1 hj2 => ?_⟩
  simp (disch := omega) only [mapRange_of_not]

def stackPage (p : Nat) : Nat := VPAGES - 1 - 2*(p+1)

omit [Layout] in
theorem KSTACK_eq {p : Nat} (h : p < NPROC) : KSTACK p = stackPage p * PGSIZE := by
  have hp : PGSIZE = 4096 := rfl
  have hV : VPAGES = 0x4000000 := by decide
  have hT : TRAMPOLINE = (VPAGES-1)*PGSIZE := by decide
  have hN : NPROC = 64 := rfl
  unfold KSTACK stackPage
  rw [hT, hp]
  omega

theorem procinitLoop_spec (ps : List Nat) : ∀ (k : Kernel) (f : Nat → Pte) (free : Nat),
    Booting k f k.kstack free → ps.Nodup → (∀ p ∈ ps, p < NPROC ∧ f (stackPage p) = 0) →
    3*ps.length < free →
    Runs (procinitLoop ps) k fun _ k' => ∃ f', Booting k' f' k'.kstack (free - 3*ps.length) := by
  have hV : VPAGES = 0x4000000 := by decide
  have hN : NPROC = 64 := rfl
  induction ps with
  | nil =>
    intro k f free h _ _ _
    exact (runs_pure _).mpr ⟨f, h⟩
  | cons p ps ih =>
    intro k f free h hnd hz hfree
    obtain ⟨hnot, hnd'⟩ := List.nodup_cons.mp hnd
    obtain ⟨hp, hfp⟩ := hz p List.mem_cons_self
    rw [List.length_cons] at hfree ⊢
    have hf := h.free
    unfold procinitLoop
    simp only [runs_bind, runs_inPhys]
    refine h.maps.kalloc.imp ?_
    intro r s hr
    cases r with
    | none =>
      rw [hr.2, List.length_nil] at hf
      omega
    | some pa =>
      obtain ⟨hfl, hm, -, -⟩ := hr
      have hlen : k.phys.freelist.length = s.freelist.length + 1 := by rw [hfl]; rfl
      have h1 : Booting { k with phys := s } f (pa :: k.kstack) (free-1) :=
        ⟨hm, show free-1 ≤ s.freelist.length by omega, h.proc, h.pipes, h.held⟩
      have hcost : tableCost (stackPage p) 1 = 2 := by
        unfold tableCost
        rw [if_neg (by decide)]
        omega
      simp only [runs_bind]
      refine (kvmmap_spec pa _ h1 (KSTACK_eq hp) (Nat.one_mul _).symm (by decide) (by
        unfold stackPage; omega) (fun j hj1 hj2 => ?_) (by omega)).imp ?_
      · obtain rfl : j = stackPage p := by omega
        exact hfp
      rintro _ k2 ⟨h2, hk2⟩
      rw [runs_modify]
      have h3 : Booting { k2 with kstack := k2.kstack ++ [pa] }
          (mapRange f (stackPage p) 1 pa (PTE_R ||| PTE_W)) (k2.kstack ++ [pa]) (free-3) := by
        refine ⟨h2.maps.perm ?_ (List.Perm.refl _), ?_, h2.proc, h2.pipes, h2.held⟩
        · rw [hk2]
          exact (List.perm_append_singleton _ _).symm
        · have := h2.free
          change free-3 ≤ k2.phys.freelist.length
          omega
      refine (ih _ _ (free-3) h3 hnd' (fun q hq => ?_) (by omega)).imp ?_
      · obtain ⟨hq1, hq2⟩ := hz q (List.mem_cons_of_mem _ hq)
        have hne : q ≠ p := fun he => hnot (he ▸ hq)
        refine ⟨hq1, ?_⟩
        rw [mapRange_of_not ?_]
        · exact hq2
        · unfold stackPage
          omega
      · rintro _ k' ⟨f', h'⟩
        exact ⟨f', h'.mono (by omega)⟩

/-- Without processes the invariant says that the kernel's pages are counted. -/
theorem Booting.inv (h : Booting k f k.kstack free) : Inv k ∧ Settled k := by
  have hz (p : Nat) : k.proc p = Proc.zero := by rw [h.proc]
  have hown : procs.flatMap k.ownPages = [] := by
    rw [List.flatMap_eq_nil_iff]
    intro p _
    unfold Kernel.ownPages
    rw [hz]
    rfl
  have hmap : k.mapped = [] := by
    unfold Kernel.mapped
    rw [List.flatMap_eq_nil_iff]
    intro p _
    unfold Kernel.userPages
    rw [hz]
    rfl
  have hkp : k.owned = tables k.phys.mem 2 k.kernel_pagetable ++ k.kstack := by
    unfold Kernel.owned Kernel.kernelPages
    rw [hown, h.pipes, h.held]
    simp
  refine ⟨⟨?_, fun p _ => ?_, fun p _ => ?_⟩, fun p _ => ?_⟩
  · rw [hmap, hkp]
    exact h.maps.ledger
  · refine ⟨fun hc => ?_, fun hc => ?_, ?_, fun _ => ?_, fun hc => ?_⟩
    · rw [hz] at hc
      exact absurd rfl hc
    · rw [hz] at hc
      exact absurd rfl hc
    · unfold Kernel.userPages
      rw [hz]
      exact List.nodup_nil
    · rw [hz]
      exact ⟨rfl, rfl⟩
    · rw [hz] at hc
      exact absurd rfl hc
  · intro hc
    rw [hz] at hc
    exact absurd rfl hc
  · rw [hz]
    exact ⟨fun _ => rfl, fun _ => rfl⟩

end Kvm

end Xv6
