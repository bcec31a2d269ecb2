import Xv6.Umalloc
import Mathlib.Data.List.Pairwise

/-! What the allocator keeps: the free blocks form a circular list in the order of their
addresses, no two of them touch, and the free and the live blocks together are the memory
obtained from `sbrk`, each byte of it once. `free` keeps it. -/
namespace Xv6.Umalloc

/-- A block: the address of its header and its units, the header's among them. -/
structure Blk where
  addr : Nat
  size : Nat
deriving DecidableEq, Repr

def Blk.fin (b : Blk) : Nat := b.addr + HEADER*b.size

def units (l : List Blk) : Nat := (l.map Blk.size).sum

@[simp] theorem units_nil : units [] = 0 := rfl

@[simp] theorem units_cons (b : Blk) (l : List Blk) : units (b :: l) = b.size + units l :=
  List.sum_cons

@[simp] theorem units_append (l l' : List Blk) : units (l ++ l') = units l + units l' := by
  simp [units]

theorem units_perm {l l' : List Blk} (h : l.Perm l') : units l = units l' :=
  (h.map Blk.size).sum_eq

abbrev cov (l : List Blk) (x : Nat) : Nat := cover Blk.addr Blk.fin l x

/-- The heap `h` has the free blocks `L`, in the order of the list, and the live blocks
`live`, out of the regions `got` that `sbrk` has given. -/
structure HeapOk (base : Nat) (h : Heap) (L live got : List Blk) : Prop where
  chain : Chain Blk.addr (ptr h.mem) base L base
  baseSize : size h.mem base = 0
  sizes : ∀ b ∈ L ++ live, size h.mem b.addr = b.size ∧ 0 < b.size
  sorted : L.Pairwise fun a b => a.fin < b.addr
  freep : h.freep ∈ base :: L.map Blk.addr
  cover : ∀ x, cov (L ++ live) x = cov got x
  units : units (L ++ live) = units got
  region : ∀ g ∈ got, base + HEADER ≤ g.addr ∧ g.fin ≤ h.brk
  once : ∀ x, cov got x ≤ 1
  brk : base + HEADER ≤ h.brk ∧ h.brk < 2^64

theorem Blk.fin_ge {b : Blk} (h : 0 < b.size) : b.addr + HEADER ≤ b.fin := by
  rw [Blk.fin, HEADER]
  omega

theorem clear_of_apart {b c : Blk} (hb : 0 < b.size) (hc : 0 < c.size)
    (h : Apart Blk.addr Blk.fin b c) : Clear b.addr c.addr := by
  have := Blk.fin_ge hb
  have := Blk.fin_ge hc
  rw [Apart] at h
  rw [Clear]
  omega

section Facts
variable {base : Nat} {h : Heap} {L live got : List Blk}

theorem HeapOk.inside (hok : HeapOk base h L live got) {b : Blk} (hb : b ∈ L ++ live) {x : Nat}
    (hlo : b.addr ≤ x) (hhi : x < b.fin) : ∃ g ∈ got, g.addr ≤ x ∧ x < g.fin := by
  have hpos : 0 < cov (L ++ live) x := cover_pos.mpr ⟨b, hb, hlo, hhi⟩
  rw [hok.cover x] at hpos
  exact cover_pos.mp hpos

theorem HeapOk.bounds (hok : HeapOk base h L live got) {b : Blk} (hb : b ∈ L ++ live) :
    base + HEADER ≤ b.addr ∧ b.fin ≤ h.brk := by
  have hfin := Blk.fin_ge (hok.sizes b hb).2
  rw [HEADER] at hfin
  obtain ⟨g, hg, hglo, _⟩ := hok.inside hb le_rfl (by omega)
  obtain ⟨g', hg', _, hghi⟩ := hok.inside hb (x := b.fin - 1) (by omega) (by omega)
  have h1 := (hok.region g hg).1
  have h2 := (hok.region g' hg').2
  omega

theorem HeapOk.apart (hok : HeapOk base h L live got) :
    (L ++ live).Pairwise (Apart Blk.addr Blk.fin) := by
  apply pairwise_apart
  · intro b hb
    have := Blk.fin_ge (hok.sizes b hb).2
    rw [HEADER] at this
    omega
  · intro x
    exact (hok.cover x).le.trans (hok.once x)

theorem HeapOk.perm (hok : HeapOk base h L live got) {live' : List Blk} (hp : live.Perm live') :
    HeapOk base h L live' got := by
  have hall : (L ++ live).Perm (L ++ live') := hp.append_left L
  exact { hok with
    sizes := fun b hb => hok.sizes b (hall.mem_iff.mpr hb)
    cover := fun x => (cover_perm hall x).symm.trans (hok.cover x)
    units := (units_perm hall).symm.trans hok.units }

theorem HeapOk.nodes (hok : HeapOk base h L live got) :
    (base :: L.map Blk.addr).Pairwise (· < ·) := by
  rw [List.pairwise_cons, List.pairwise_map]
  constructor
  · intro x hx
    obtain ⟨b, hb, rfl⟩ := List.mem_map.mp hx
    have := (hok.bounds (List.mem_append_left live hb)).1
    rw [HEADER] at this
    omega
  · apply hok.sorted.imp_of_mem
    intro a b ha hb hab
    have := Blk.fin_ge (hok.sizes a (List.mem_append_left live ha)).2
    omega

theorem HeapOk.apart_of_perm (hok : HeapOk base h L live got) {c : Blk} {l : List Blk}
    (hp : (L ++ live).Perm (c :: l)) : ∀ d ∈ l, Apart Blk.addr Blk.fin d c := by
  intro d hd
  have hap := hok.apart.perm hp fun h => Or.symm h
  exact Or.symm ((List.pairwise_cons.mp hap).1 d hd)

theorem HeapOk.clear_of_perm (hok : HeapOk base h L live got) {c : Blk} {l : List Blk}
    (hp : (L ++ live).Perm (c :: l)) : ∀ d ∈ l, Clear d.addr c.addr := by
  intro d hd
  have hc := (hok.sizes c (hp.mem_iff.mpr List.mem_cons_self)).2
  have hpos := (hok.sizes d (hp.mem_iff.mpr (List.mem_cons_of_mem _ hd))).2
  exact clear_of_apart hpos hc (hok.apart_of_perm hp d hd)

theorem HeapOk.clear {b : Blk} (hok : HeapOk base h L (b :: live) got) :
    ∀ c ∈ L ++ live, Clear c.addr b.addr := hok.clear_of_perm List.perm_middle

theorem perm_free (A C l : List Blk) (a : Blk) :
    ((A ++ a :: C) ++ l).Perm (a :: (A ++ (C ++ l))) := by
  rw [List.append_assoc]
  exact List.perm_middle

theorem HeapOk.clear_free {A C : List Blk} {a : Blk} (hok : HeapOk base h (A ++ a :: C) live got) :
    ∀ c ∈ A ++ (C ++ live), Clear c.addr a.addr := hok.clear_of_perm (perm_free A C live a)

theorem HeapOk.clear_base (hok : HeapOk base h L live got) {b : Blk} (hb : b ∈ L ++ live) :
    Clear base b.addr := Or.inl (hok.bounds hb).1

theorem HeapOk.headers (hok : HeapOk base h L live got) {x y : Nat}
    (hx : x ∈ base :: (L ++ live).map Blk.addr) (hy : y ∈ base :: (L ++ live).map Blk.addr)
    (hne : x ≠ y) : Clear x y := by
  have hall : (base :: (L ++ live).map Blk.addr).Pairwise Clear := by
    rw [List.pairwise_cons, List.pairwise_map]
    constructor
    · intro z hz
      obtain ⟨b, hb, rfl⟩ := List.mem_map.mp hz
      exact hok.clear_base hb
    · apply hok.apart.imp_of_mem
      intro b c hb hc hbc
      exact clear_of_apart (hok.sizes b hb).2 (hok.sizes c hc).2 hbc
  have : Std.Symm Clear := ⟨fun _ _ h => Clear.symm h⟩
  exact hall.forall hx hy hne

theorem HeapOk.addr_lt (hok : HeapOk base h L live got) {b : Blk} (hb : b ∈ L ++ live) :
    b.addr < 2^64 := by
  have h1 := Blk.fin_ge (hok.sizes b hb).2
  have h2 := (hok.bounds hb).2
  have h3 := hok.brk.2
  omega

theorem header_of_node {x : Nat} (hx : x ∈ base :: L.map Blk.addr) (l : List Blk) :
    x ∈ base :: (L ++ l).map Blk.addr := by
  rw [List.map_append, ← List.cons_append]
  exact List.mem_append_left _ hx

theorem lastNode_header (base : Nat) (A B l : List Blk) :
    lastNode Blk.addr base A ∈ base :: ((A ++ B) ++ l).map Blk.addr :=
  header_of_node (header_of_node (lastNode_mem base A) B) l

/-- The list when the pointer of its node before `B` is changed, and no other. -/
theorem HeapOk.redirect {A B : List Blk} (hok : HeapOk base h (A ++ B) live got) {m : Bytes} {z : Nat}
    (hlast : ptr m (lastNode Blk.addr base A) = z)
    (hkeep : ∀ x ∈ base :: (A ++ B).map Blk.addr, Clear x (lastNode Blk.addr base A) →
      ptr m x = ptr h.mem x) :
    Chain Blk.addr (ptr m) base A z ∧ ∀ b ∈ B, ptr m b.addr = ptr h.mem b.addr := by
  have hclear {x : Nat} (hx : x ∈ base :: (A ++ B).map Blk.addr)
      (hne : x ≠ lastNode Blk.addr base A) : ptr m x = ptr h.mem x :=
    hkeep x hx (hok.headers (header_of_node hx live) (lastNode_header base A B live) hne)
  have hnodes := hok.nodes
  rw [List.map_append, ← List.cons_append, List.pairwise_append] at hnodes
  constructor
  · apply ((chain_append A B base base).mp hok.chain).1.redirect hlast
    · exact fun x hx => hclear (header_of_node hx B)
    · exact hnodes.1.imp fun h => Nat.ne_of_lt h
  · intro b hb
    apply hclear
    · exact List.mem_cons_of_mem _ (List.mem_map_of_mem (List.mem_append_right A hb))
    · exact (hnodes.2.2 _ (lastNode_mem base A) b.addr (List.mem_map_of_mem hb)).ne'

end Facts

/-! The search of `free`. -/

section Search
variable {m : Bytes} {bp base : Nat}

theorem freeLoop_below (A C : List Blk) : ∀ (p fuel : Nat), A.length < fuel →
    Chain Blk.addr (ptr m) p (A ++ C) base → p < bp → base ≤ p →
    (p :: (A ++ C).map Blk.addr).Pairwise (· < ·) → (∀ a ∈ A, a.addr < bp) →
    (∀ c ∈ C, bp < c.addr) → freeLoop m bp fuel p = some (lastNode Blk.addr p A) := by
  induction A with
  | nil =>
    intro p fuel hfuel hchain hp hbase _ _ hC
    obtain ⟨n, rfl⟩ : ∃ n, fuel = n+1 := ⟨fuel-1, by rw [List.length_nil] at hfuel; omega⟩
    -- At the last block below `bp` one of the two tests ends the search.
    have hstop : (bp > p ∧ bp < ptr m p) ∨ (p ≥ ptr m p ∧ (bp > p ∨ bp < ptr m p)) := by
      cases C with
      | nil =>
        rw [List.append_nil, Chain] at hchain
        rw [hchain]
        exact Or.inr ⟨hbase, Or.inl hp⟩
      | cons c C =>
        have hc := hC c List.mem_cons_self
        rw [List.nil_append, Chain] at hchain
        rw [hchain.1]
        exact Or.inl ⟨hp, hc⟩
    rw [freeLoop]
    by_cases h1 : bp > p ∧ bp < ptr m p
    · rw [if_pos h1]
      rfl
    · rw [if_neg h1, if_pos (hstop.resolve_left h1)]
      rfl
  | cons a A ih =>
    intro p fuel hfuel hchain hp hbase hsorted hA hC
    obtain ⟨n, rfl⟩ : ∃ n, fuel = n+1 := ⟨fuel-1, by omega⟩
    rw [List.cons_append, Chain] at hchain
    rw [List.cons_append, List.map_cons] at hsorted
    have ha := hA a List.mem_cons_self
    have hpa : p < a.addr := (List.pairwise_cons.mp hsorted).1 _ List.mem_cons_self
    rw [freeLoop, hchain.1, if_neg (by omega), if_neg (by omega)]
    exact ih a.addr n (by rw [List.length_cons] at hfuel; omega) hchain.2 ha (by omega)
      (List.pairwise_cons.mp hsorted).2 (fun b hb => hA b (List.mem_cons_of_mem _ hb)) hC

theorem freeLoop_above (C : List Blk) : ∀ (p fuel : Nat),
    Chain Blk.addr (ptr m) p C base → bp < p → base < bp →
    (p :: C.map Blk.addr).Pairwise (· < ·) →
    freeLoop m bp (fuel + C.length + 1) p = freeLoop m bp fuel base := by
  induction C with
  | nil =>
    intro p fuel hchain hp hbase _
    rw [Chain] at hchain
    rw [List.length_nil, freeLoop, hchain, if_neg (by omega), if_neg (by omega)]
  | cons c C ih =>
    intro p fuel hchain hp hbase hsorted
    rw [Chain] at hchain
    rw [List.map_cons] at hsorted
    have hpc : p < c.addr := (List.pairwise_cons.mp hsorted).1 _ List.mem_cons_self
    rw [freeLoop, hchain.1, if_neg (by omega), if_neg (by omega), List.length_cons,
      show fuel + (C.length+1) = fuel + C.length + 1 by omega]
    exact ih c.addr fuel hchain.2 (by omega) hbase (List.pairwise_cons.mp hsorted).2

end Search

section Free
variable {base : Nat} {h : Heap} {A C live got : List Blk} {b : Blk}

theorem HeapOk.freeLoop_finds (hok : HeapOk base h (A ++ C) (b :: live) got)
    (hA : ∀ a ∈ A, a.addr < b.addr) (hC : ∀ c ∈ C, b.addr < c.addr) {fuel : Nat}
    (hfuel : 2*(A ++ C).length + 2 ≤ fuel) :
    freeLoop h.mem b.addr fuel h.freep = some (lastNode Blk.addr base A) := by
  have hbase : base < b.addr := by
    have := (hok.bounds (List.mem_append_right (A ++ C) List.mem_cons_self)).1
    rw [HEADER] at this
    omega
  have hnodes := hok.nodes
  have hfrom : ∀ n, A.length < n →
      freeLoop h.mem b.addr n base = some (lastNode Blk.addr base A) := fun n hn =>
    freeLoop_below A C base n hn hok.chain hbase le_rfl hnodes hA hC
  rcases List.mem_cons.mp hok.freep with hfreep | hfreep
  · rw [hfreep]
    rw [List.length_append] at hfuel
    exact hfrom fuel (by omega)
  obtain ⟨s, hs, heq⟩ := List.mem_map.mp hfreep
  rw [← heq]
  rcases List.mem_append.mp hs with hsA | hsC
  · obtain ⟨A1, A2, rfl⟩ := List.append_of_mem hsA
    have hchain := hok.chain
    rw [List.append_assoc, List.cons_append, chain_append_cons] at hchain
    rw [List.append_assoc, List.cons_append, List.map_append, List.map_cons,
      ← List.cons_append, List.pairwise_append] at hnodes
    rw [lastNode_append]
    apply freeLoop_below A2 C s.addr fuel _ hchain.2 (hA s hsA) _ hnodes.2.1 _ hC
    · simp only [List.length_append, List.length_cons] at hfuel
      omega
    · exact (hnodes.2.2 base List.mem_cons_self s.addr List.mem_cons_self).le
    · intro a ha
      exact hA a (by simp [ha])
  · obtain ⟨C1, C2, rfl⟩ := List.append_of_mem hsC
    have hchain := hok.chain
    rw [← List.append_assoc, chain_append_cons] at hchain
    rw [← List.append_assoc, List.map_append, List.map_cons, ← List.cons_append,
      List.pairwise_append] at hnodes
    simp only [List.length_append, List.length_cons] at hfuel
    obtain ⟨n, rfl⟩ : ∃ n, fuel = n + C2.length + 1 := ⟨fuel - C2.length - 1, by omega⟩
    rw [freeLoop_above C2 s.addr n hchain.2 (hC s hsC) hbase hnodes.2.1]
    exact hfrom n (by omega)

/-- A block and the free blocks above it, joined where they meet. -/
structure Joined (m : Bytes) (base : Nat) (b : Blk) (C : List Blk) (b' : Blk) (C' : List Blk) :
    Prop where
  addr : b'.addr = b.addr
  size : Umalloc.size m b.addr = b'.size
  chain : Chain Blk.addr (ptr m) b.addr C' base
  cover : ∀ x, cov (b' :: C') x = cov (b :: C) x
  units : Umalloc.units (b' :: C') = Umalloc.units (b :: C)
  sorted : (b' :: C').Pairwise fun a c => a.fin < c.addr
  rest : ∀ c ∈ C', c ∈ C
  grown : b.size ≤ b'.size

theorem plus_eq {p n : Nat} (h : p + HEADER*n < 2^64) : plus p n = p + HEADER*n := by
  rw [plus]
  exact Nat.mod_eq_of_lt h

theorem cov_join {a c : Blk} (h : a.fin = c.addr) (l : List Blk) (x : Nat) :
    cov (⟨a.addr, a.size + c.size⟩ :: l) x = cov (a :: c :: l) x := by
  have hfin : (⟨a.addr, a.size + c.size⟩ : Blk).fin = c.fin := by
    simp only [Blk.fin, Nat.mul_add] at h ⊢
    omega
  have haddr : (⟨a.addr, a.size + c.size⟩ : Blk).addr = a.addr := rfl
  exact cover_join haddr h hfin (Nat.le_add_right _ _) (Nat.le_add_right _ _) l x

theorem HeapOk.clear_header {L : List Blk} (hok : HeapOk base h L (b :: live) got) {x : Nat}
    (hx : x ∈ base :: (L ++ live).map Blk.addr) : Clear x b.addr := by
  rcases List.mem_cons.mp hx with rfl | hx
  · exact hok.clear_base (List.mem_append_right L List.mem_cons_self)
  · obtain ⟨c, hc, rfl⟩ := List.mem_map.mp hx
    exact hok.clear c hc

theorem HeapOk.prev_mem (hok : HeapOk base h (A ++ C) (b :: live) got) :
    Clear (lastNode Blk.addr base A) b.addr := hok.clear_header (lastNode_header base A C live)

theorem HeapOk.joinUpper_spec (hok : HeapOk base h (A ++ C) (b :: live) got)
    (hunits : Umalloc.units (A ++ C) + b.size < 2^32) (hC : ∀ c ∈ C, b.addr < c.addr) :
    ∃ b' C', Joined (joinUpper h.mem b.addr (lastNode Blk.addr base A)) base b C b' C' := by
  have hmem : b ∈ (A ++ C) ++ b :: live := List.mem_append_right _ List.mem_cons_self
  obtain ⟨hsize, hpos⟩ := hok.sizes b hmem
  obtain ⟨hlo, hhi⟩ := hok.bounds hmem
  have hbrk := hok.brk.2
  have hplus : plus b.addr (size h.mem b.addr) = b.fin := by
    rw [hsize]
    apply plus_eq
    rw [Blk.fin] at hhi
    omega
  have hchain := ((chain_append A C base base).mp hok.chain).2
  have hoff := joinUpper_off h.mem b.addr (lastNode Blk.addr base A)
  have hclear : ∀ c ∈ C, Clear c.addr b.addr := fun c hc =>
    hok.clear c (List.mem_append_left live (List.mem_append_right A hc))
  have hkeep : ∀ c ∈ C, ptr (joinUpper h.mem b.addr (lastNode Blk.addr base A)) c.addr =
      ptr h.mem c.addr := fun c hc => hoff.ptr (hclear c hc)
  have hsorted := (List.pairwise_append.mp hok.sorted).2.1
  have hat := fun hnext => joinUpper_at h.mem hok.prev_mem hnext
  rw [hplus] at hat
  cases C with
  | nil =>
    -- Above the last block comes `base`, which lies below `b`.
    rw [Chain] at hchain
    rw [HEADER] at hlo
    have hfin := Blk.fin_ge hpos
    have hat := (hat (by rw [hchain, Clear, HEADER]; omega)).2
    rw [hchain] at hat
    obtain ⟨h1, h2⟩ := hat (by omega)
    exact ⟨b, [], rfl, h1.trans hsize, h2, fun _ => rfl, rfl,
      List.pairwise_singleton _ _, fun c hc => hc, le_rfl⟩
  | cons c C =>
    have hc := hC c List.mem_cons_self
    obtain ⟨hcsize, hcpos⟩ := hok.sizes c (by simp)
    rw [Chain] at hchain
    have hat := hat (by rw [hchain.1]; exact hclear c List.mem_cons_self)
    rw [hchain.1, hcsize, hsize] at hat
    -- `b` ends at `c` or below it.
    have hle : b.fin ≤ c.addr := by
      have hap := hok.apart
      rw [List.pairwise_append] at hap
      have := hap.2.2 c (by simp) b List.mem_cons_self
      have := Blk.fin_ge hcpos
      rw [Apart] at *
      omega
    by_cases hjoin : b.fin = c.addr
    · have hat := hat.1 hjoin
      have hsum : b.size + c.size < 2^32 := by
        simp only [units_append, units_cons] at hunits
        omega
      rw [Nat.mod_eq_of_lt hsum] at hat
      refine ⟨⟨b.addr, b.size + c.size⟩, C, rfl, hat.1, ?_, fun x => cov_join hjoin C x,
        ?_, ?_, fun d hd => List.mem_cons_of_mem _ hd, Nat.le_add_right _ _⟩
      · exact hchain.2.move hat.2 fun d hd => hkeep d (List.mem_cons_of_mem _ hd)
      · simp only [units_cons]
        omega
      · rw [List.pairwise_cons] at hsorted ⊢
        refine ⟨fun d hd => ?_, hsorted.2⟩
        have := hsorted.1 d hd
        simp only [Blk.fin, Nat.mul_add] at *
        omega
    · have hat := hat.2 hjoin
      refine ⟨b, c :: C, rfl, hat.1, ?_, fun _ => rfl, rfl, ?_, fun d hd => hd, le_rfl⟩
      · exact ⟨hat.2, hchain.2.move (hkeep c List.mem_cons_self) fun d hd =>
          hkeep d (List.mem_cons_of_mem _ hd)⟩
      · rw [List.pairwise_cons]
        refine ⟨fun d hd => ?_, hsorted⟩
        rcases List.mem_cons.mp hd with rfl | hd
        · omega
        · have h1 := (List.pairwise_cons.mp hsorted).1 d hd
          have h2 := Blk.fin_ge hcpos
          omega

/-- The heap after a live block has become part of the free list. -/
theorem HeapOk.replace {L L' : List Blk} {h' : Heap} (hok : HeapOk base h L (b :: live) got)
    (hbrk : h'.brk = h.brk) (hchain : Chain Blk.addr (ptr h'.mem) base L' base)
    (hbase : size h'.mem base = size h.mem base)
    (hfree : ∀ c ∈ L', size h'.mem c.addr = c.size ∧ 0 < c.size)
    (hlive : ∀ c ∈ live, size h'.mem c.addr = size h.mem c.addr)
    (hsorted : L'.Pairwise fun a c => a.fin < c.addr)
    (hfreep : h'.freep ∈ base :: L'.map Blk.addr)
    (hcover : ∀ x, cov L' x = cov L x + cov [b] x)
    (hunits : Umalloc.units L' = Umalloc.units L + b.size) : HeapOk base h' L' live got where
  chain := hchain
  baseSize := hbase.trans hok.baseSize
  sizes := by
    intro c hc
    rcases List.mem_append.mp hc with hc | hc
    · exact hfree c hc
    · rw [hlive c hc]
      exact hok.sizes c (List.mem_append_right L (List.mem_cons_of_mem _ hc))
  sorted := hsorted
  freep := hfreep
  cover := by
    intro x
    have hold := hok.cover x
    have hnew := hcover x
    simp only [cov, cover_append, cover_cons, cover_nil] at hold hnew ⊢
    omega
  units := by
    have hold := hok.units
    simp only [units_append, units_cons] at hold ⊢
    omega
  region := by
    rw [hbrk]
    exact hok.region
  once := hok.once
  brk := by
    rw [hbrk]
    exact hok.brk

theorem Joined.pos {m : Bytes} {b' : Blk} {C' : List Blk} (hj : Joined m base b C b' C')
    (hb : 0 < b.size) : 0 < b'.size := hb.trans_le hj.grown

/-- What both joins leave alone: every header but those of `b` and of the node before it. -/
theorem join_keeps (h : Heap) {bp p q : Nat} (hb : Clear q bp) (hp : Clear q p) :
    ptr (link h bp p).mem q = ptr h.mem q ∧ size (link h bp p).mem q = size h.mem q := by
  have hup := joinUpper_off h.mem bp p
  have hlow := joinLower_off (joinUpper h.mem bp p) bp p
  exact ⟨(hlow.ptr hp).trans (hup.ptr hb), (hlow.size hp).trans (hup.size hb)⟩

theorem mem_around {A C l : List Blk} {a c : Blk} (hc : c ∈ A ++ (C ++ l)) :
    c ∈ (A ++ a :: C) ++ l := by
  simp only [List.mem_append, List.mem_cons] at hc ⊢
  tauto

theorem HeapOk.below (hok : HeapOk base h (A ++ C) (b :: live) got) (hA : ∀ a ∈ A, a.addr < b.addr) :
    ∀ a ∈ A, a.fin ≤ b.addr := by
  intro a ha
  have hap := (List.pairwise_append.mp hok.apart).2.2 a (List.mem_append_left C ha) b
    List.mem_cons_self
  have hb := Blk.fin_ge (hok.sizes b (by simp)).2
  have hlt := hA a ha
  rw [Apart] at hap
  omega

/-- The test of `free` for the block below: `base` itself never passes it. -/
theorem HeapOk.prev_end (hok : HeapOk base h (A ++ C) (b :: live) got)
    (hA : ∀ a ∈ A, a.addr < b.addr) :
    plus (lastNode Blk.addr base A) (size h.mem (lastNode Blk.addr base A)) = b.addr ↔
      ∃ A' a, A = A' ++ [a] ∧ a.fin = b.addr := by
  have hmem : b ∈ (A ++ C) ++ b :: live := List.mem_append_right _ List.mem_cons_self
  have hlt := hok.addr_lt hmem
  rcases List.eq_nil_or_concat' A with rfl | ⟨A', a, rfl⟩
  · have hlo := (hok.bounds hmem).1
    rw [lastNode, hok.baseSize, plus_eq (by rw [HEADER] at hlo ⊢; omega), Nat.mul_zero]
    constructor
    · rw [HEADER] at hlo
      omega
    · rintro ⟨A', a, heq, _⟩
      simp at heq
  · have hle := hok.below hA a (by simp)
    rw [lastNode_append, lastNode, lastNode, (hok.sizes a (by simp)).1,
      plus_eq (show a.fin < 2^64 by omega)]
    constructor
    · exact fun heq => ⟨A', a, rfl, heq⟩
    · rintro ⟨A1, a1, heq, hfin⟩
      obtain ⟨_, heq⟩ := List.append_inj' heq rfl
      rw [List.singleton_inj.mp heq]
      exact hfin

/-- `b` stays a block of its own, behind the last of `A` or behind `base`. -/
theorem HeapOk.link_apart (hok : HeapOk base h (A ++ C) (b :: live) got) {b' : Blk} {C' : List Blk}
    (hj : Joined (joinUpper h.mem b.addr (lastNode Blk.addr base A)) base b C b' C')
    (hA : ∀ a ∈ A, a.fin < b.addr)
    (hne : plus (lastNode Blk.addr base A) (size h.mem (lastNode Blk.addr base A)) ≠ b.addr) :
    HeapOk base (link h b.addr (lastNode Blk.addr base A)) (A ++ b' :: C') live got := by
  set p := lastNode Blk.addr base A with hp
  have hmem : b ∈ (A ++ C) ++ b :: live := List.mem_append_right _ List.mem_cons_self
  have hpb : Clear p b.addr := hok.prev_mem
  have hup := joinUpper_off h.mem b.addr p
  have hlow := joinLower_off (joinUpper h.mem b.addr p) b.addr p
  have hat := (joinLower_at (joinUpper h.mem b.addr p) hpb.symm (hok.addr_lt hmem)).2
  rw [hup.size hpb] at hat
  obtain ⟨hat1, hat2⟩ := hat hne
  rw [← link_mem] at hat1 hat2
  obtain ⟨hfront, hback⟩ := hok.redirect hat2 fun x hx hxp =>
    (join_keeps h (hok.clear_header (header_of_node hx live)) hxp).1
  have hsize (x : Nat) (hx : x ∈ base :: ((A ++ C) ++ live).map Blk.addr) :
      size (link h b.addr p).mem x = size h.mem x := by
    by_cases heq : x = p
    · rw [heq, hat1]
    · have hsub := (List.sublist_cons_self b live).append_left (A ++ C)
      have hx' := ((hsub.map Blk.addr).cons_cons base).subset hx
      have hxp : Clear x p := hok.headers hx' (lastNode_header base A C (b :: live)) heq
      exact (join_keeps h (hok.clear_header hx) hxp).2
  have hblock (c : Blk) (hc : c ∈ A ++ C) :
      size (link h b.addr p).mem c.addr = c.size ∧ 0 < c.size := by
    rw [hsize c.addr (header_of_node (List.mem_cons_of_mem _ (List.mem_map_of_mem hc)) live)]
    exact hok.sizes c (List.mem_append_left _ hc)
  have hsorted := List.pairwise_append.mp hok.sorted
  apply hok.replace (link_brk h b.addr p)
  · rw [chain_append_cons, hj.addr]
    refine ⟨hfront, hj.chain.move (hlow.ptr hpb.symm) fun c hc => ?_⟩
    rw [hup.ptr (hok.clear c (by simp [hj.rest c hc]))]
    exact hback c (hj.rest c hc)
  · exact hsize base List.mem_cons_self
  · intro c hc
    rcases List.mem_append.mp hc with hcA | hc
    · exact hblock c (List.mem_append_left C hcA)
    rcases List.mem_cons.mp hc with rfl | hc
    · rw [hj.addr]
      exact ⟨(hlow.size hpb.symm).trans hj.size, hj.pos (hok.sizes b hmem).2⟩
    · exact hblock c (List.mem_append_right A (hj.rest c hc))
  · exact fun c hc => hsize c.addr (List.mem_cons_of_mem _ (List.mem_map_of_mem (by simp [hc])))
  · refine List.pairwise_append.mpr ⟨hsorted.1, hj.sorted, ?_⟩
    intro c hc d hd
    rcases List.mem_cons.mp hd with rfl | hd
    · rw [hj.addr]
      exact hA c hc
    · exact hsorted.2.2 c hc d (hj.rest d hd)
  · exact header_of_node (lastNode_mem base A) (b' :: C')
  · intro x
    have h2 := hj.cover x
    simp only [cov, cover_append, cover_cons, cover_nil] at h2 ⊢
    omega
  · have h1 := hj.units
    simp only [units_append, units_cons] at h1 ⊢
    omega

/-- `b` is joined with the block `a` below it. -/
theorem HeapOk.link_joined {a : Blk} (hok : HeapOk base h (A ++ a :: C) (b :: live) got)
    (hunits : Umalloc.units (A ++ a :: C) + b.size < 2^32) {b' : Blk} {C' : List Blk}
    (hj : Joined (joinUpper h.mem b.addr a.addr) base b C b' C') (hjoin : a.fin = b.addr) :
    HeapOk base (link h b.addr a.addr) (A ++ ⟨a.addr, a.size + b'.size⟩ :: C') live got := by
  have hmem : b ∈ (A ++ a :: C) ++ b :: live := List.mem_append_right _ List.mem_cons_self
  obtain ⟨hasize, hapos⟩ := hok.sizes a (by simp)
  have hclear : Clear a.addr b.addr := hok.clear a (by simp)
  have hlow := joinLower_off (joinUpper h.mem b.addr a.addr) b.addr a.addr
  have hlt := hok.addr_lt hmem
  have hat := (joinLower_at (joinUpper h.mem b.addr a.addr) hclear.symm hlt).1
  have hsum : a.size + b'.size < 2^32 := by
    have h2 := hj.units
    simp only [units_append, units_cons] at hunits h2
    omega
  rw [(joinUpper_off h.mem b.addr a.addr).size hclear, hasize, hj.size, Nat.mod_eq_of_lt hsum,
    plus_eq (show a.fin < 2^64 by omega)] at hat
  obtain ⟨hat1, hat2⟩ := hat hjoin
  rw [← link_mem] at hat1 hat2
  have hkeep (c : Blk) (hc : c ∈ A ++ (C ++ live)) :
      ptr (link h b.addr a.addr).mem c.addr = ptr h.mem c.addr ∧
        size (link h b.addr a.addr).mem c.addr = size h.mem c.addr := by
    have hsub := ((List.sublist_cons_self b live).append_left C).append_left A
    exact join_keeps h (hok.clear c (mem_around hc)) (hok.clear_free c (hsub.subset hc))
  have hbase := join_keeps h (hok.clear_base hmem) (hok.clear_base (show a ∈ _ by simp))
  have hblock (c : Blk) (hc : c ∈ A ++ C) :
      size (link h b.addr a.addr).mem c.addr = c.size ∧ 0 < c.size := by
    have hc' : c ∈ A ++ (C ++ live) := by
      rw [← List.append_assoc]
      exact List.mem_append_left live hc
    rw [(hkeep c hc').2]
    exact hok.sizes c (List.mem_append_left _ (((List.sublist_cons_self a C).append_left A).subset hc))
  have hmeet : a.fin = b'.addr := hjoin.trans hj.addr.symm
  have hfin : (⟨a.addr, a.size + b'.size⟩ : Blk).fin = b'.fin := by
    simp only [Blk.fin, Nat.mul_add] at hmeet ⊢
    omega
  have hsorted := List.pairwise_append.mp hok.sorted
  apply hok.replace (link_brk h b.addr a.addr)
  · rw [chain_append_cons]
    constructor
    · exact ((chain_append_cons A C a base base).mp hok.chain).1.move hbase.1
        fun c hc => (hkeep c (List.mem_append_left _ hc)).1
    · exact hj.chain.move hat2 fun c hc => hlow.ptr (hok.clear_free c (by simp [hj.rest c hc]))
  · exact hbase.2
  · intro c hc
    rcases List.mem_append.mp hc with hcA | hc
    · exact hblock c (List.mem_append_left C hcA)
    rcases List.mem_cons.mp hc with rfl | hc
    · exact ⟨hat1, Nat.lt_add_right _ hapos⟩
    · exact hblock c (List.mem_append_right A (hj.rest c hc))
  · exact fun c hc => (hkeep c (by simp [hc])).2
  · rw [List.pairwise_append, List.pairwise_cons, hfin]
    refine ⟨hsorted.1, List.pairwise_cons.mp hj.sorted, ?_⟩
    intro c hc d hd
    rcases List.mem_cons.mp hd with rfl | hd
    · exact hsorted.2.2 c hc a List.mem_cons_self
    · exact hsorted.2.2 c hc d (List.mem_cons_of_mem _ (hj.rest d hd))
  · rw [link_freep]
    simp
  · intro x
    have h1 := cov_join hmeet C' x
    have h2 := hj.cover x
    simp only [cov, cover_append, cover_cons, cover_nil] at h1 h2 ⊢
    omega
  · have h1 := hj.units
    simp only [units_append, units_cons] at h1 ⊢
    omega

theorem HeapOk.link_spec (hok : HeapOk base h (A ++ C) (b :: live) got)
    (hunits : Umalloc.units (A ++ C) + b.size < 2^32) (hA : ∀ a ∈ A, a.addr < b.addr)
    (hC : ∀ c ∈ C, b.addr < c.addr) :
    ∃ L', HeapOk base (link h b.addr (lastNode Blk.addr base A)) L' live got ∧
      ∃ c ∈ L', b.size ≤ c.size := by
  obtain ⟨b', C', hj⟩ := hok.joinUpper_spec hunits hC
  by_cases hjoin : plus (lastNode Blk.addr base A) (size h.mem (lastNode Blk.addr base A)) = b.addr
  · obtain ⟨A', a, rfl, hfin⟩ := (hok.prev_end hA).mp hjoin
    rw [lastNode_append, lastNode, lastNode] at hj ⊢
    rw [List.append_assoc, List.singleton_append] at hok hunits
    exact ⟨_, hok.link_joined hunits hj hfin, ⟨a.addr, a.size + b'.size⟩, by simp,
      hj.grown.trans (Nat.le_add_left _ _)⟩
  · refine ⟨_, hok.link_apart hj ?_ hjoin, b', by simp, hj.grown⟩
    -- Only the last block of `A` could end at `b`.
    intro a ha
    obtain ⟨A1, A2, rfl⟩ := List.append_of_mem ha
    cases A2 with
    | nil =>
      apply Nat.lt_of_le_of_ne (hok.below hA a ha)
      exact fun hfin => hjoin ((hok.prev_end hA).mpr ⟨A1, a, rfl, hfin⟩)
    | cons c A2 =>
      have hsorted := (List.pairwise_append.mp (List.pairwise_append.mp hok.sorted).1).2.1
      exact ((List.pairwise_cons.mp hsorted).1 c List.mem_cons_self).trans (hA c (by simp))

theorem HeapOk.place {L : List Blk} (hok : HeapOk base h L (b :: live) got) :
    ∃ A C, L = A ++ C ∧ (∀ a ∈ A, a.addr < b.addr) ∧ ∀ c ∈ C, b.addr < c.addr := by
  have hne : ∀ c ∈ L, c.addr ≠ b.addr := by
    intro c hc heq
    have hclear := hok.clear c (List.mem_append_left live hc)
    rw [Clear, HEADER] at hclear
    omega
  rcases exists_first (fun c : Blk => b.addr < c.addr) L with hall | ⟨A, c, C, rfl, hc, hA⟩
  · refine ⟨L, [], (List.append_nil L).symm, ?_, fun c hc => absurd hc List.not_mem_nil⟩
    intro a ha
    have h1 := hall a ha
    have h2 := hne a ha
    omega
  · refine ⟨A, c :: C, rfl, ?_, ?_⟩
    · intro a ha
      have h1 := hA a ha
      have h2 := hne a (List.mem_append_left _ ha)
      omega
    · intro d hd
      rcases List.mem_cons.mp hd with rfl | hd
      · exact hc
      · have hsorted := List.pairwise_cons.mp (List.pairwise_append.mp hok.sorted).2.1
        have h1 := hsorted.1 d hd
        have h2 : c.addr ≤ c.fin := Nat.le_add_right _ _
        omega

theorem HeapOk.free_spec {L : List Blk} (hok : HeapOk base h L (b :: live) got)
    (hunits : Umalloc.units L + b.size < 2^32) :
    ∃ h' L', (∀ fuel, 2*L.length + 2 ≤ fuel → free fuel h (b.addr + HEADER) = some h') ∧
      HeapOk base h' L' live got ∧ h'.brk = h.brk ∧ ∃ c ∈ L', b.size ≤ c.size := by
  obtain ⟨A, C, rfl, hA, hC⟩ := hok.place
  obtain ⟨L', hok', hgrown⟩ := hok.link_spec hunits hA hC
  refine ⟨link h b.addr (lastNode Blk.addr base A), L', fun fuel hfuel => ?_, hok', rfl, hgrown⟩
  have hlt := hok.addr_lt (List.mem_append_right (A ++ C) List.mem_cons_self)
  have hbp : (b.addr + HEADER + (2^64 - HEADER)) % 2^64 = b.addr := by
    rw [HEADER]
    omega
  simp only [free, hbp]
  rw [hok.freeLoop_finds hA hC hfuel]
  rfl

end Free

end Xv6.Umalloc
