import Xv6.UmallocFree

/-! `malloc` keeps the heap in order, and so does every run of `malloc`, `free` and the
program between the calls. -/
namespace Xv6.Umalloc

section Take
variable {base : Nat} {h : Heap} {A B live got : List Blk} {c : Blk} {n : Nat}

theorem HeapOk.take_exact (hok : HeapOk base h (A ++ c :: B) live got) :
    HeapOk base { h with mem := setPtr h.mem (lastNode Blk.addr base A) (ptr h.mem c.addr)
                         freep := lastNode Blk.addr base A } (A ++ B) (c :: live) got := by
  have hoff := sameOff_setPtr h.mem (lastNode Blk.addr base A) (ptr h.mem c.addr)
  obtain ⟨hfront, hback⟩ := hok.redirect rfl fun x _ hclear => hoff.ptr hclear
  have hsize : ∀ x ∈ base :: ((A ++ c :: B) ++ live).map Blk.addr,
      size (setPtr h.mem (lastNode Blk.addr base A) (ptr h.mem c.addr)) x = size h.mem x := by
    intro x hx
    by_cases heq : x = lastNode Blk.addr base A
    · rw [heq, size_setPtr_same]
    · exact hoff.size (hok.headers hx (lastNode_header base A (c :: B) live) heq)
  have hperm : ((A ++ c :: B) ++ live).Perm ((A ++ B) ++ c :: live) :=
    (perm_free A B live c).trans (by
      rw [← List.append_assoc]
      exact List.perm_middle.symm)
  exact {
    chain := by
      rw [chain_append]
      refine ⟨hfront, ((chain_append_cons A B c base base).mp hok.chain).2.move ?_ fun b hb => ?_⟩
      · exact ptr_setPtr_same _ _ (ptr_lt _ _)
      · exact hback b (List.mem_cons_of_mem _ hb)
    baseSize := (hsize base List.mem_cons_self).trans hok.baseSize
    sizes := by
      intro b hb
      have hb := hperm.mem_iff.mpr hb
      dsimp only
      rw [hsize b.addr (List.mem_cons_of_mem _ (List.mem_map_of_mem hb))]
      exact hok.sizes b hb
    sorted := hok.sorted.sublist ((List.sublist_cons_self c B).append_left A)
    freep := header_of_node (lastNode_mem base A) B
    cover := fun x => (cover_perm hperm x).symm.trans (hok.cover x)
    units := (units_perm hperm).symm.trans hok.units
    region := hok.region
    once := hok.once
    brk := hok.brk }

def cutMem (m : Bytes) (c : Blk) (n : Nat) : Bytes :=
  setSize (setSize m c.addr (c.size - n)) (c.addr + HEADER*(c.size - n)) n

theorem HeapOk.cut_keeps (hok : HeapOk base h (A ++ c :: B) live got) (hn : 0 < n)
    (hlt : n < c.size) {x : Nat} (hx : x ∈ base :: (A ++ (B ++ live)).map Blk.addr) :
    ptr (cutMem h.mem c n) x = ptr h.mem x ∧ size (cutMem h.mem c n) x = size h.mem x := by
  have hc : c ∈ (A ++ c :: B) ++ live := by simp
  -- The new header lies inside `c`.
  have hclear : Clear x c.addr ∧ Clear x (c.addr + HEADER*(c.size - n)) := by
    rcases List.mem_cons.mp hx with rfl | hx
    · have := (hok.bounds hc).1
      simp only [Clear, HEADER] at *
      omega
    · obtain ⟨d, hd, rfl⟩ := List.mem_map.mp hx
      have hpos := Blk.fin_ge (hok.sizes d (mem_around hd)).2
      have hap := hok.apart_of_perm (perm_free A B live c) d hd
      simp only [Apart, Clear, Blk.fin, HEADER] at *
      omega
  have h1 := sameOff_setSize h.mem c.addr (c.size - n)
  have h2 := sameOff_setSize (setSize h.mem c.addr (c.size - n))
    (c.addr + HEADER*(c.size - n)) n
  exact ⟨(h2.ptr hclear.2).trans (h1.ptr hclear.1), (h2.size hclear.2).trans (h1.size hclear.1)⟩

theorem HeapOk.take_cut (hok : HeapOk base h (A ++ c :: B) live got) (hn : 0 < n)
    (hlt : n < c.size) :
    HeapOk base { h with mem := cutMem h.mem c n, freep := lastNode Blk.addr base A }
      (A ++ ⟨c.addr, c.size - n⟩ :: B) (⟨c.addr + HEADER*(c.size - n), n⟩ :: live) got := by
  have hc : c ∈ (A ++ c :: B) ++ live := by simp
  have hcsize := (hok.sizes c hc).1
  have hlt32 : c.size < 2^32 := by
    rw [← hcsize]
    exact size_lt _ _
  have hkeep := fun x hx => hok.cut_keeps hn hlt (x := x) hx
  have hinner : Clear c.addr (c.addr + HEADER*(c.size - n)) := by
    simp only [Clear, HEADER]
    omega
  have h2 := sameOff_setSize (setSize h.mem c.addr (c.size - n))
    (c.addr + HEADER*(c.size - n)) n
  have hptrc : ptr (cutMem h.mem c n) c.addr = ptr h.mem c.addr :=
    (h2.ptr hinner).trans (ptr_setSize_same _ _ _)
  have hsizec : size (cutMem h.mem c n) c.addr = c.size - n := by
    rw [cutMem, h2.size hinner, size_setSize_same]
    exact Nat.mod_eq_of_lt (by omega)
  have hsizeq : size (cutMem h.mem c n) (c.addr + HEADER*(c.size - n)) = n := by
    rw [cutMem, size_setSize_same]
    exact Nat.mod_eq_of_lt (by omega)
  have hchain := (chain_append_cons A B c base base).mp hok.chain
  have hnode : ∀ b ∈ A ++ B, ptr (cutMem h.mem c n) b.addr = ptr h.mem b.addr := fun b hb =>
    (hkeep b.addr (List.mem_cons_of_mem _ (List.mem_map_of_mem (by
      rw [← List.append_assoc]
      exact List.mem_append_left _ hb)))).1
  have hfin : (⟨c.addr, c.size - n⟩ : Blk).fin ≤ c.fin := by
    simp only [Blk.fin, HEADER]
    omega
  have hsorted := List.pairwise_append.mp hok.sorted
  have hsortedc := List.pairwise_cons.mp hsorted.2.1
  have hmeet : (⟨c.addr, c.size - n⟩ : Blk).fin =
      (⟨c.addr + HEADER*(c.size - n), n⟩ : Blk).addr := rfl
  have hjoin : (⟨c.addr, c.size - n + n⟩ : Blk) = c := by
    rw [Nat.sub_add_cancel hlt.le]
  exact {
    chain := by
      rw [chain_append_cons]
      constructor
      · apply hchain.1.move (hkeep base List.mem_cons_self).1
        intro b hb
        exact hnode b (List.mem_append_left _ hb)
      · apply hchain.2.move hptrc
        intro b hb
        exact hnode b (List.mem_append_right _ hb)
    baseSize := (hkeep base List.mem_cons_self).2.trans hok.baseSize
    sizes := by
      intro b hb
      have hother : b ∈ A ++ (B ++ live) → size (cutMem h.mem c n) b.addr = b.size ∧
          0 < b.size := by
        intro hb
        rw [(hkeep b.addr (List.mem_cons_of_mem _ (List.mem_map_of_mem hb))).2]
        exact hok.sizes b (mem_around hb)
      rcases List.mem_append.mp hb with hb | hb
      · rcases List.mem_append.mp hb with hb | hb
        · exact hother (List.mem_append_left _ hb)
        rcases List.mem_cons.mp hb with rfl | hb
        · exact ⟨hsizec, Nat.sub_pos_of_lt hlt⟩
        · exact hother (List.mem_append_right _ (List.mem_append_left _ hb))
      · rcases List.mem_cons.mp hb with rfl | hb
        · exact ⟨hsizeq, hn⟩
        · exact hother (List.mem_append_right _ (List.mem_append_right _ hb))
    sorted := by
      rw [List.pairwise_append, List.pairwise_cons]
      refine ⟨hsorted.1, ⟨fun d hd => hfin.trans_lt (hsortedc.1 d hd), hsortedc.2⟩, ?_⟩
      intro d hd e he
      rcases List.mem_cons.mp he with rfl | he
      · exact hsorted.2.2 d hd c List.mem_cons_self
      · exact hsorted.2.2 d hd e (List.mem_cons_of_mem _ he)
    freep := header_of_node (lastNode_mem base A) _
    cover := by
      intro x
      have hold := hok.cover x
      have hcut := cov_join hmeet B x
      rw [hjoin] at hcut
      simp only [cov, cover_append, cover_cons] at hold hcut ⊢
      omega
    units := by
      have hold := hok.units
      simp only [units_append, units_cons] at hold ⊢
      omega
    region := hok.region
    once := hok.once
    brk := hok.brk }

theorem HeapOk.take_spec (hok : HeapOk base h (A ++ c :: B) live got) (hn : 0 < n)
    (hle : n ≤ c.size) :
    ∃ h' L' d, take h n (lastNode Blk.addr base A) c.addr = (d.addr + HEADER, h') ∧ d.size = n ∧
      HeapOk base h' L' (d :: live) got ∧ h'.brk = h.brk ∧ h'.asked = h.asked := by
  have hc : c ∈ (A ++ c :: B) ++ live := by simp
  have hcsize := (hok.sizes c hc).1
  have hbrk := hok.brk.2
  have hhi := (hok.bounds hc).2
  have hlt32 : c.size < 2^32 := by
    rw [← hcsize]
    exact size_lt _ _
  rw [Blk.fin, HEADER] at hhi
  by_cases heq : c.size = n
  · refine ⟨_, A ++ B, c, ?_, heq, hok.take_exact, rfl, rfl⟩
    rw [take, if_pos (hcsize.trans heq), plus_eq (by rw [HEADER]; omega), Nat.mul_one]
  · refine ⟨_, _, ⟨c.addr + HEADER*(c.size - n), n⟩, ?_, rfl, hok.take_cut hn (by omega), rfl, rfl⟩
    have hq : size (setSize h.mem c.addr (size h.mem c.addr - n)) c.addr = c.size - n := by
      rw [size_setSize_same, hcsize]
      exact Nat.mod_eq_of_lt (by omega)
    have hplus : plus c.addr (c.size - n) = c.addr + HEADER*(c.size - n) :=
      plus_eq (by rw [HEADER]; omega)
    have hnext : plus (c.addr + HEADER*(c.size - n)) 1 =
        c.addr + HEADER*(c.size - n) + HEADER := plus_eq (by rw [HEADER]; omega)
    rw [take, if_neg (by rw [hcsize]; exact heq)]
    dsimp only
    rw [hq, hplus, hnext, hcsize, cutMem]

end Take

section Search
variable {h : Heap} {grant : Grant} {free_fuel n : Nat}

theorem mallocLoop_walk (L : List Blk) : ∀ (prev z fuel : Nat),
    Chain Blk.addr (ptr h.mem) prev L z → (∀ b ∈ L, size h.mem b.addr < n) →
    (∀ b ∈ L, b.addr ≠ h.freep) →
    mallocLoop grant free_fuel n (fuel + L.length) h prev (ptr h.mem prev) =
      mallocLoop grant free_fuel n fuel h (lastNode Blk.addr prev L) z := by
  induction L with
  | nil =>
    intro prev z fuel hchain _ _
    rw [Chain] at hchain
    rw [hchain, List.length_nil, Nat.add_zero, lastNode]
  | cons b L ih =>
    intro prev z fuel hchain hsmall hfreep
    rw [Chain] at hchain
    have h1 := hsmall b List.mem_cons_self
    have h2 := hfreep b List.mem_cons_self
    rw [List.length_cons, show fuel + (L.length+1) = fuel + L.length + 1 by omega, mallocLoop,
      hchain.1, if_neg (by omega), if_neg h2, lastNode]
    exact ih b.addr z fuel hchain.2 (fun c hc => hsmall c (List.mem_cons_of_mem _ hc))
      (fun c hc => hfreep c (List.mem_cons_of_mem _ hc))

variable (grant n) in
/-- One round of the loop from `freep`, through the other nodes of the list and back to it:
the first block that is large enough, or `freep` again. -/
theorem mallocLoop_round {R : List Blk} (hchain : Chain Blk.addr (ptr h.mem) h.freep R h.freep)
    (hsizes : ∀ b ∈ R, size h.mem b.addr = b.size) (hne : ∀ b ∈ R, b.addr ≠ h.freep) :
    (∃ R1 c R2, R = R1 ++ c :: R2 ∧ n ≤ c.size ∧ ∀ free_fuel fuel, R.length + 1 ≤ fuel →
      mallocLoop grant free_fuel n fuel h h.freep (ptr h.mem h.freep) =
        some (take h n (lastNode Blk.addr h.freep R1) c.addr)) ∨
    ((∀ b ∈ R, b.size < n) ∧ ∀ free_fuel fuel,
      mallocLoop grant free_fuel n (fuel + R.length) h h.freep (ptr h.mem h.freep) =
        mallocLoop grant free_fuel n fuel h (lastNode Blk.addr h.freep R) h.freep) := by
  rcases exists_first (fun b : Blk => n ≤ b.size) R with hall | ⟨R1, c, R2, rfl, hc, hR1⟩
  · refine Or.inr ⟨fun b hb => not_le.mp (hall b hb), fun _ fuel => ?_⟩
    apply mallocLoop_walk R h.freep h.freep fuel hchain _ hne
    intro b hb
    rw [hsizes b hb]
    exact not_le.mp (hall b hb)
  · refine Or.inl ⟨R1, c, R2, rfl, hc, fun _ fuel hfuel => ?_⟩
    rw [chain_append_cons] at hchain
    obtain ⟨k, rfl⟩ : ∃ k, fuel = k + 1 + R1.length :=
      ⟨fuel - 1 - R1.length, by rw [List.length_append] at hfuel; omega⟩
    rw [mallocLoop_walk R1 h.freep c.addr (k+1) hchain.1, mallocLoop, if_pos]
    · rw [hsizes c (by simp)]
      exact hc
    · intro b hb
      rw [hsizes b (List.mem_append_left _ hb)]
      exact not_le.mp (hR1 b hb)
    · exact fun b hb => hne b (List.mem_append_left _ hb)

end Search

section Malloc
variable {base : Nat} {h : Heap} {L live got : List Blk} {grant : Grant} {n : Nat}

theorem HeapOk.rotate {A B : List Blk} {s : Blk} (hok : HeapOk base h (A ++ s :: B) live got) :
    Chain Blk.addr (ptr h.mem) s.addr (B ++ ⟨base, 0⟩ :: A) s.addr ∧
      (∀ b ∈ B ++ ⟨base, 0⟩ :: A, size h.mem b.addr = b.size) ∧
      ∀ b ∈ B ++ ⟨base, 0⟩ :: A, b.addr ≠ s.addr := by
  have hchain := (chain_append_cons A B s base base).mp hok.chain
  have hnodes := hok.nodes
  rw [List.map_append, List.map_cons, ← List.cons_append, List.pairwise_append] at hnodes
  refine ⟨(chain_append_cons B A _ s.addr s.addr).mpr ⟨hchain.2, hchain.1⟩, ?_, ?_⟩
  · intro b hb
    rcases List.mem_append.mp hb with hb | hb
    · exact (hok.sizes b (by simp [hb])).1
    rcases List.mem_cons.mp hb with rfl | hb
    · exact hok.baseSize
    · exact (hok.sizes b (by simp [hb])).1
  · intro b hb
    rcases List.mem_append.mp hb with hb | hb
    · exact ((List.pairwise_cons.mp hnodes.2.1).1 _ (List.mem_map_of_mem hb)).ne'
    rcases List.mem_cons.mp hb with rfl | hb
    · exact (hnodes.2.2 _ List.mem_cons_self _ List.mem_cons_self).ne
    · exact (hnodes.2.2 _ (List.mem_cons_of_mem _ (List.mem_map_of_mem hb)) _
        List.mem_cons_self).ne

/-- A block met on the way round is one of the list, behind the same node. -/
theorem rotate_split {A B R1 R2 : List Blk} {s c : Blk}
    (h : B ++ ⟨base, 0⟩ :: A = R1 ++ c :: R2) (hc : 0 < c.size) :
    ∃ A' B', A ++ s :: B = A' ++ c :: B' ∧
      lastNode Blk.addr s.addr R1 = lastNode Blk.addr base A' := by
  rcases List.append_eq_append_iff.mp h with ⟨R', rfl, heq⟩ | ⟨B', rfl, heq⟩
  · cases R' with
    | nil =>
      obtain ⟨rfl, _⟩ := List.cons.inj heq
      exact absurd hc (Nat.lt_irrefl 0)
    | cons r R' =>
      obtain ⟨rfl, rfl⟩ := List.cons.inj heq
      refine ⟨R', R2 ++ s :: B, by simp, ?_⟩
      rw [lastNode_append, lastNode]
  · cases B' with
    | nil =>
      obtain ⟨rfl, _⟩ := List.cons.inj heq
      exact absurd hc (Nat.lt_irrefl 0)
    | cons r B' =>
      obtain ⟨rfl, rfl⟩ := List.cons.inj heq
      refine ⟨A ++ s :: R1, B', by simp, ?_⟩
      rw [lastNode_append, lastNode]

/-- What the loop of `malloc` does on the list it finds: it takes a block, or it has seen
all of them and comes to `morecore`. -/
theorem HeapOk.mallocLoop_spec (grant : Grant) (hok : HeapOk base h L live got) (hn : 0 < n) :
    (∃ A c B, L = A ++ c :: B ∧ n ≤ c.size ∧ ∀ free_fuel fuel, L.length + 2 ≤ fuel →
      mallocLoop grant free_fuel n fuel h h.freep (ptr h.mem h.freep) =
        some (take h n (lastNode Blk.addr base A) c.addr)) ∨
    ((∀ b ∈ L, b.size < n) ∧ ∃ prev, ∀ free_fuel fuel,
      mallocLoop grant free_fuel n (fuel + L.length) h h.freep (ptr h.mem h.freep) =
        mallocLoop grant free_fuel n fuel h prev h.freep) := by
  have hsizes : ∀ b ∈ L, size h.mem b.addr = b.size := fun b hb =>
    (hok.sizes b (List.mem_append_left live hb)).1
  rcases List.mem_cons.mp hok.freep with hfreep | hfreep
  · -- The search starts at `base`.
    have hne : ∀ b ∈ L, b.addr ≠ h.freep := by
      intro b hb
      rw [hfreep]
      exact ((List.pairwise_cons.mp hok.nodes).1 _ (List.mem_map_of_mem hb)).ne'
    have hchain := hok.chain
    rw [← hfreep] at hchain ⊢
    rcases mallocLoop_round grant n hchain hsizes hne with
      ⟨A, c, B, rfl, hc, hfound⟩ | ⟨hall, hround⟩
    · exact Or.inl ⟨A, c, B, rfl, hc, fun k fuel hfuel => hfound k fuel (by omega)⟩
    · exact Or.inr ⟨hall, _, hround⟩
  · -- It starts at a free block, which it looks at last.
    obtain ⟨s, hs, hsaddr⟩ := List.mem_map.mp hfreep
    clear hfreep
    obtain ⟨A, B, rfl⟩ := List.append_of_mem hs
    obtain ⟨hchain, hring, hne⟩ := hok.rotate
    rw [hsaddr] at hchain hne
    have hlen : (B ++ ⟨base, 0⟩ :: A).length = (A ++ s :: B).length := by
      simp only [List.length_append, List.length_cons]
      omega
    rcases mallocLoop_round grant n hchain hring hne with
      ⟨R1, c, R2, hsplit, hc, hfound⟩ | ⟨hall, hround⟩
    · obtain ⟨A', B', heq, hprev⟩ := rotate_split (s := s) hsplit (hn.trans_le hc)
      rw [← hsaddr, hprev, hlen] at hfound
      rw [← hsaddr]
      exact Or.inl ⟨A', c, B', heq, hc, fun k fuel hfuel => hfound k fuel (by omega)⟩
    rw [hlen, lastNode_append, lastNode] at hround
    by_cases hsn : n ≤ s.size
    · refine Or.inl ⟨A, s, B, rfl, hsn, fun free_fuel fuel hfuel => ?_⟩
      obtain ⟨k, rfl⟩ : ∃ k, fuel = k + 1 + (A ++ s :: B).length :=
        ⟨fuel - 1 - (A ++ s :: B).length, by omega⟩
      rw [hround free_fuel (k+1), mallocLoop, if_pos]
      · rw [hsaddr]
      · rw [← hsaddr, hsizes s hs]
        exact hsn
    · refine Or.inr ⟨fun b hb => ?_, _, hround⟩
      rcases List.mem_append.mp hb with hb | hb
      · exact hall b (by simp [hb])
      rcases List.mem_cons.mp hb with rfl | hb
      · exact not_le.mp hsn
      · exact hall b (by simp [hb])

/-- The memory `sbrk` has just given, as a block beside the others. -/
theorem HeapOk.extend (hok : HeapOk base h L live got) {nu : Nat} (hnu : 0 < nu)
    (hlt : nu < 2^32) (hbrk : h.brk + HEADER*nu < 2^64) :
    HeapOk base { h with mem := setSize h.mem h.brk nu, brk := h.brk + HEADER*nu } L
      (⟨h.brk, nu⟩ :: live) (⟨h.brk, nu⟩ :: got) := by
  have hoff := sameOff_setSize h.mem h.brk nu
  have hclear : ∀ b ∈ L ++ live, Clear b.addr h.brk := by
    intro b hb
    have h1 := Blk.fin_ge (hok.sizes b hb).2
    have h2 := (hok.bounds hb).2
    exact Or.inl (h1.trans h2)
  have hbase : Clear base h.brk := Or.inl hok.brk.1
  exact {
    chain := hok.chain.move (hoff.ptr hbase)
      fun b hb => hoff.ptr (hclear b (List.mem_append_left live hb))
    baseSize := (hoff.size hbase).trans hok.baseSize
    sizes := by
      intro b hb
      have hother : b ∈ L ++ live → size (setSize h.mem h.brk nu) b.addr = b.size ∧
          0 < b.size := by
        intro hb
        rw [hoff.size (hclear b hb)]
        exact hok.sizes b hb
      rcases List.mem_append.mp hb with hb | hb
      · exact hother (List.mem_append_left live hb)
      rcases List.mem_cons.mp hb with rfl | hb
      · exact ⟨(size_setSize_same _ _ _).trans (Nat.mod_eq_of_lt hlt), hnu⟩
      · exact hother (List.mem_append_right L hb)
    sorted := hok.sorted
    freep := hok.freep
    cover := by
      intro x
      have hold := hok.cover x
      simp only [cov, cover_append, cover_cons] at hold ⊢
      omega
    units := by
      have hold := hok.units
      simp only [units_append, units_cons] at hold ⊢
      omega
    region := by
      intro g hg
      rcases List.mem_cons.mp hg with rfl | hg
      · exact ⟨hok.brk.1, le_rfl⟩
      · have := hok.region g hg
        exact ⟨this.1, this.2.trans (Nat.le_add_right _ _)⟩
    once := by
      intro x
      have hold := hok.once x
      rw [cov, cover_cons]
      split_ifs with hx
      · -- The new region lies above all earlier ones.
        have hnone : cov got x = 0 := by
          by_contra hne
          obtain ⟨g, hg, _, hgx⟩ := cover_pos.mp (Nat.pos_of_ne_zero hne)
          have := (hok.region g hg).2
          have hlo : h.brk ≤ x := hx.1
          omega
        rw [cov] at hnone
        omega
      · rw [cov] at hold
        omega
    brk := ⟨hok.brk.1.trans (Nat.le_add_right _ _), hbrk⟩ }

theorem coreUnits_ge (n : Nat) : n ≤ coreUnits n ∧ 0 < coreUnits n := by
  unfold coreUnits
  split <;> omega

theorem toInt_eq {k : Nat} (h : k < 2^31) : toInt k = k := by
  unfold toInt
  rw [Nat.mod_eq_of_lt (by omega), if_pos h]

theorem HeapOk.ask (hok : HeapOk base h L live got) (k : Int) : HeapOk base (h.ask k) L live got :=
  { hok with }

theorem free_asked {fuel ap : Nat} {h' : Heap} (hr : free fuel h ap = some h') :
    h'.asked = h.asked := by
  obtain ⟨p, _, rfl⟩ := Option.map_eq_some_iff.mp hr
  exact link_asked ..

/-- `sbrk` of the number of bytes that is meant. -/
abbrev intended (n : Nat) : Int := (coreUnits n*HEADER : Nat)

/-- `morecore` fails, or adds a block that is large enough to the list. -/
theorem HeapOk.morecore_spec (hok : HeapOk base h L live got)
    (hsmall : coreUnits n*HEADER < 2^31)
    (hlimit : grant h.brk (intended n) = true → Umalloc.units L + coreUnits n < 2^32) :
    (¬ Granted grant h (intended n) ∧
      ∀ fuel, morecore grant fuel h n = some (0, h.ask (intended n))) ∨
    ∃ h' L', (∀ fuel, 2*L.length + 2 ≤ fuel → morecore grant fuel h n = some (h'.freep, h')) ∧
      HeapOk base h' L' live (⟨h.brk, coreUnits n⟩ :: got) ∧
      h'.brk = h.brk + HEADER*coreUnits n ∧ h'.asked = intended n :: h.asked ∧
      grant h.brk (intended n) = true ∧ ∃ c ∈ L', n ≤ c.size := by
  by_cases hgrant : Granted grant h (intended n)
  · right
    have hunits := hlimit hgrant.1
    obtain ⟨hge, hpos⟩ := coreUnits_ge n
    have hcomm : h.brk + coreUnits n*HEADER = h.brk + HEADER*coreUnits n := by
      rw [Nat.mul_comm]
    have hbrk : h.brk + HEADER*coreUnits n < 2^64 := by
      have := hgrant.2.2
      rw [intended, HEADER] at this
      rw [HEADER]
      omega
    have hext := (hok.ask (intended n)).extend hpos (by omega) hbrk
    obtain ⟨h', L', hfree, hok', hbrk', c, hc, hle⟩ := hext.free_spec hunits
    refine ⟨h', L', fun fuel hfuel => ?_, hok', hbrk', free_asked (hfree _ le_rfl), hgrant.1, c, hc,
      hge.trans hle⟩
    have hsbrk : sbrk grant h (toInt (coreUnits n*HEADER)) =
        (some h.brk, { h.ask (intended n) with brk := h.brk + HEADER*coreUnits n }) := by
      rw [toInt_eq hsmall, sbrk, if_pos hgrant, ← hcomm]
      rfl
    have hplus : plus h.brk 1 = h.brk + HEADER := plus_eq (by
      rw [HEADER] at hbrk ⊢
      omega)
    rw [morecore]
    simp only [hsbrk, hplus]
    exact congrArg (Option.map _) (hfree fuel hfuel)
  · refine Or.inl ⟨hgrant, fun fuel => ?_⟩
    have hsbrk : sbrk grant h (toInt (coreUnits n*HEADER)) = (none, h.ask (intended n)) := by
      rw [toInt_eq hsmall, sbrk, if_neg hgrant]
    rw [morecore]
    simp only [hsbrk]

theorem HeapOk.freep_ne (hok : HeapOk base h L live got) (hbase : 0 < base) : h.freep ≠ 0 := by
  rcases List.mem_cons.mp hok.freep with heq | hmem
  · omega
  · have := (List.pairwise_cons.mp hok.nodes).1 _ hmem
    omega

/-- What a call of `malloc` for `n` units has done when it returns `r`: it has found a block
in the list, in the list after `morecore`, or nothing. -/
inductive Allocated (base : Nat) (grant : Grant) (h : Heap) (live got : List Blk) (n r : Nat)
    (h' : Heap) : Prop
  | failed (L : List Blk) (hr : r = 0) (hno : ¬ Granted grant h (intended n)) (hbrk : h'.brk = h.brk)
      (hasked : h'.asked = intended n :: h.asked) (hok : HeapOk base h' L live got)
  | found (L : List Blk) (d : Blk) (hr : r = d.addr + HEADER) (hd : d.size = n)
      (hbrk : h'.brk = h.brk) (hasked : h'.asked = h.asked) (hok : HeapOk base h' L (d :: live) got)
  | grown (L : List Blk) (d : Blk) (hr : r = d.addr + HEADER) (hd : d.size = n)
      (hyes : grant h.brk (intended n) = true) (hbrk : h'.brk = h.brk + HEADER*coreUnits n)
      (hasked : h'.asked = intended n :: h.asked)
      (hok : HeapOk base h' L (d :: live) (⟨h.brk, coreUnits n⟩ :: got))

theorem HeapOk.freep_small (hok : HeapOk base h L live got) (hn : 0 < n)
    (hall : ∀ b ∈ L, b.size < n) : size h.mem h.freep < n := by
  rcases List.mem_cons.mp hok.freep with heq | hmem
  · rw [heq, hok.baseSize]
    exact hn
  · obtain ⟨s, hs, heq⟩ := List.mem_map.mp hmem
    rw [← heq, (hok.sizes s (List.mem_append_left live hs)).1]
    exact hall s hs

theorem HeapOk.mallocLoop_ends (hok : HeapOk base h L live got) (hbase : 0 < base) (hn : 0 < n)
    (hsmall : (∃ b ∈ L, n ≤ b.size) ∨ coreUnits n*HEADER < 2^31)
    (hlimit : grant h.brk (intended n) = true → Umalloc.units L + coreUnits n < 2^32) :
    ∃ N r h', (∀ fuel, N ≤ fuel →
        mallocLoop grant fuel n fuel h h.freep (ptr h.mem h.freep) = some (r, h')) ∧
      Allocated base grant h live got n r h' := by
  rcases hok.mallocLoop_spec grant hn with ⟨A, c, B, rfl, hc, hfound⟩ | ⟨hall, prev, hround⟩
  · obtain ⟨h', L', d, htake, hd, hok', hbrk, hasked⟩ := hok.take_spec hn hc
    refine ⟨(A ++ c :: B).length + 2, d.addr + HEADER, h', fun fuel hfuel => ?_,
      .found L' d rfl hd hbrk hasked hok'⟩
    rw [hfound fuel fuel hfuel, htake]
  -- All blocks are too small; at `freep` the loop calls `morecore`.
  have hlt := hok.freep_small hn hall
  have hsmall : coreUnits n*HEADER < 2^31 := by
    rcases hsmall with ⟨b, hb, hle⟩ | hsmall
    · exact absurd hle (not_le.mpr (hall b hb))
    · exact hsmall
  rcases hok.morecore_spec hsmall hlimit with
    ⟨hno, hfail⟩ | ⟨h', L', hmore, hok', hbrk, hasked, hyes, c, hc, hle⟩
  · refine ⟨L.length + 1, 0, h.ask (intended n), fun fuel hfuel => ?_,
      .failed L rfl hno rfl rfl (hok.ask _)⟩
    obtain ⟨k, rfl⟩ : ∃ k, fuel = k + 1 + L.length := ⟨fuel - 1 - L.length, by omega⟩
    rw [hround _ (k+1), mallocLoop, if_neg (not_le.mpr hlt), if_pos rfl, hfail]
    rfl
  · -- The list now has a block that is large enough, and the loop goes on to it.
    rcases hok'.mallocLoop_spec grant hn with ⟨A, e, B, rfl, he, hfound⟩ | ⟨hall', _⟩
    · obtain ⟨h'', L'', d, htake, hd, hok'', hbrk', hasked'⟩ := hok'.take_spec hn he
      refine ⟨2*L.length + 3 + (A ++ e :: B).length, d.addr + HEADER, h'', fun fuel hfuel => ?_,
        .grown L'' d rfl hd hyes (hbrk'.trans hbrk) (hasked'.trans hasked) hok''⟩
      obtain ⟨k, rfl⟩ : ∃ k, fuel = k + 1 + L.length := ⟨fuel - 1 - L.length, by omega⟩
      rw [hround _ (k+1), mallocLoop, if_neg (not_le.mpr hlt), if_pos rfl, hmore _ (by omega)]
      dsimp only
      rw [if_neg (hok'.freep_ne hbase), hfound _ k (by omega), htake]
    · exact absurd hle (not_le.mpr (hall' c hc))

/-! What a call asks of `sbrk`, whatever becomes of the heap. -/

theorem morecore_asked {fuel r : Nat} {h' : Heap} (hr : morecore grant fuel h n = some (r, h')) :
    h'.asked = toInt (coreUnits n*HEADER) :: h.asked := by
  have hsbrk : (sbrk grant h (toInt (coreUnits n*HEADER))).2.asked =
      toInt (coreUnits n*HEADER) :: h.asked := by
    unfold sbrk
    split_ifs <;> rfl
  unfold morecore at hr
  dsimp only at hr
  rcases hs : sbrk grant h (toInt (coreUnits n*HEADER)) with ⟨_ | p, h1⟩
  · rw [hs] at hr hsbrk
    cases hr
    exact hsbrk
  · rw [hs] at hr hsbrk
    obtain ⟨h2, hfree, heq⟩ := Option.map_eq_some_iff.mp hr
    cases heq
    exact (free_asked hfree).trans hsbrk

theorem mallocLoop_asked {free_fuel fuel prevp p r : Nat} {h' : Heap}
    (hr : mallocLoop grant free_fuel n fuel h prevp p = some (r, h')) :
    h.asked <:+ h'.asked := by
  induction fuel generalizing h prevp p with
  | zero => cases hr
  | succ fuel ih =>
    rw [mallocLoop] at hr
    split_ifs at hr
    · have htake : (take h n prevp p).2.asked = h.asked := by
        unfold take
        split_ifs <;> rfl
      have hend : (r, h').2.asked = h.asked := by rw [← Option.some.inj hr, htake]
      exact ⟨[], hend.symm⟩
    · cases hm : morecore grant free_fuel h n with
      | none =>
        rw [hm] at hr
        cases hr
      | some q =>
        rw [hm] at hr
        have hsuffix : h.asked <:+ q.2.asked := ⟨[_], (morecore_asked hm).symm⟩
        dsimp only at hr
        split_ifs at hr
        · cases hr
          exact hsuffix
        · exact hsuffix.trans (ih hr)
    · exact ih hr

/-- A request that no free block can serve goes to `sbrk`. -/
theorem HeapOk.mallocLoop_asks (hok : HeapOk base h L live got) (hn : 0 < n)
    (hall : ∀ b ∈ L, b.size < n) {free_fuel fuel r : Nat} {h' : Heap} (hfuel : L.length < fuel)
    (hr : mallocLoop grant free_fuel n fuel h h.freep (ptr h.mem h.freep) = some (r, h')) :
    toInt (coreUnits n*HEADER) :: h.asked <:+ h'.asked := by
  obtain ⟨k, rfl⟩ : ∃ k, fuel = k + 1 + L.length := ⟨fuel - 1 - L.length, by omega⟩
  rcases hok.mallocLoop_spec grant hn with ⟨A, c, B, rfl, hc, _⟩ | ⟨_, prev, hround⟩
  · exact absurd hc (not_le.mpr (hall c (by simp)))
  · rw [hround, mallocLoop, if_neg (not_le.mpr (hok.freep_small hn hall)), if_pos rfl] at hr
    cases hm : morecore grant free_fuel h n with
    | none =>
      rw [hm] at hr
      cases hr
    | some q =>
      rw [hm] at hr
      rw [← morecore_asked hm]
      dsimp only at hr
      split_ifs at hr
      · cases hr
        exact List.suffix_rfl
      · exact mallocLoop_asked hr

end Malloc

end Xv6.Umalloc
