import Xv6.UmallocSafety

/-! Runs of a program that uses the allocator: calls of `malloc` and `free`, stores into the
blocks it holds, and `sbrk` calls of its own. -/
namespace Xv6.Umalloc

open Function

/-- The heap with what the run has made of it: the blocks that are allocated and the regions
`morecore` has got from `sbrk`. -/
structure Arena where
  heap : Heap
  live : List Blk
  got : List Blk

inductive Op
  /-- `malloc(nbytes)`, with the answers of `sbrk`. -/
  | malloc (nbytes : Nat) (grant : Grant)
  /-- `free` of the pointer to an allocated block. -/
  | free (b : Blk)
  /-- A store into an allocated block. -/
  | write (x : Nat) (v : UInt8)
  /-- The program moves the break itself. -/
  | sbrk (k : Nat)

def Arena.enabled (a : Arena) : Op → Prop
  | .malloc nbytes _ => (nbytes/16 + 2)*16 < 2^31
  | .free b => b ∈ a.live
  | .write x _ => ∃ b ∈ a.live, b.addr + HEADER ≤ x ∧ x < b.fin
  | .sbrk k => a.heap.brk + k < 2^64

def Arena.step (base fuel : Nat) (a : Arena) : Op → Option Arena
  | .malloc nbytes grant => (malloc base grant fuel a.heap nbytes).map fun (r, h) =>
    { heap := h
      live := if r = 0 then a.live else ⟨r - HEADER, nunits nbytes⟩ :: a.live
      got := if h.brk = a.heap.brk then a.got
        else ⟨a.heap.brk, (h.brk - a.heap.brk)/HEADER⟩ :: a.got }
  | .free b => (free fuel a.heap (b.addr + HEADER)).map fun h =>
    { a with heap := h, live := a.live.erase b }
  | .write x v => some { a with heap := { a.heap with mem := update a.heap.mem x v } }
  | .sbrk k => some { a with heap := { a.heap with brk := a.heap.brk + k } }

/-- The call ends, whatever fuel beyond some bound it is given, and leaves `a'`. -/
def Arena.Returns (base : Nat) (a : Arena) (op : Op) (a' : Arena) : Prop :=
  ∃ N, ∀ fuel, N ≤ fuel → a.step base fuel op = some a'

/-- The states of a run whose calls satisfy `ok`. -/
inductive Reachable (base : Nat) (ok : Arena → Op → Prop) : Arena → Prop
  | start (m : Bytes) (brk : Nat) (hbase : 0 < base) (hbrk : base + HEADER ≤ brk)
      (hlt : brk < 2^64) : Reachable base ok ⟨⟨m, 0, brk, []⟩, [], []⟩
  | step {a a' : Arena} {op : Op} (h : Reachable base ok a) (hen : a.enabled op) (hok : ok a op)
      (hret : a.Returns base op a') : Reachable base ok a'

theorem Arena.Returns.unique {base : Nat} {a a1 a2 : Arena} {op : Op}
    (h1 : a.Returns base op a1) (h2 : a.Returns base op a2) : a1 = a2 := by
  obtain ⟨N1, h1⟩ := h1
  obtain ⟨N2, h2⟩ := h2
  have heq := (h1 (max N1 N2) (le_max_left _ _)).symm.trans (h2 (max N1 N2) (le_max_right _ _))
  exact Option.some.inj heq

/-- A heap in order, or one that has not been used. -/
def ArenaOk (base : Nat) (a : Arena) : Prop :=
  0 < base ∧ ((a.heap.freep = 0 ∧ a.live = [] ∧ a.got = [] ∧ base + HEADER ≤ a.heap.brk ∧
    a.heap.brk < 2^64) ∨ ∃ L, HeapOk base a.heap L a.live a.got)

section Malloc
variable {base : Nat} {a : Arena}

theorem ArenaOk.init (h : ArenaOk base a) :
    (∃ L, HeapOk base (init base a.heap) L a.live a.got) ∧
      (Umalloc.init base a.heap).brk = a.heap.brk ∧
      (Umalloc.init base a.heap).asked = a.heap.asked := by
  obtain ⟨hbase, ⟨hfreep, hlive, hgot, hbrk⟩ | ⟨L, hok⟩⟩ := h
  · rw [Umalloc.init, if_pos hfreep, hlive, hgot]
    refine ⟨⟨[], ?_⟩, rfl, rfl⟩
    exact {
      chain := (ptr_setSize_same _ _ _).trans (ptr_setPtr_same _ _ (by omega))
      baseSize := size_setSize_same _ _ _
      sizes := fun b hb => absurd hb List.not_mem_nil
      sorted := List.Pairwise.nil
      freep := List.mem_cons_self
      cover := fun _ => rfl
      units := rfl
      region := fun g hg => absurd hg List.not_mem_nil
      once := fun _ => Nat.zero_le _
      brk := hbrk }
  · rw [Umalloc.init, if_neg (hok.freep_ne hbase)]
    exact ⟨⟨L, hok⟩, rfl, rfl⟩

/-- The sum is one of `size_t`, so that it does not overflow for any `uint`. -/
theorem nunits_eq {nbytes : Nat} (h : nbytes < 2^32) :
    nunits nbytes = (nbytes + 15)/16 + 1 := by
  rw [nunits, HEADER, Nat.mod_eq_of_lt (by omega)]
  omega

theorem coreUnits_small {nbytes : Nat} (h : nbytes ≤ 2^31 - 32) :
    coreUnits (nunits nbytes)*HEADER < 2^31 := by
  have hn := nunits_eq (show nbytes < 2^32 by omega)
  have hcore : coreUnits (nunits nbytes) ≤ max 4096 (nunits nbytes) := by
    rw [coreUnits]
    split <;> omega
  rw [HEADER]
  omega

theorem bytes_le {nbytes : Nat} (h : (nbytes/16 + 2)*16 < 2^31) : nbytes ≤ 2^31 - 32 := by
  omega

theorem bytes_le_units {nbytes : Nat} (h : nbytes < 2^32) : nbytes ≤ HEADER*(nunits nbytes - 1) := by
  rw [nunits_eq h, HEADER]
  omega

/-- What `malloc` has done to the run's state. -/
inductive Arena.Malloced (base : Nat) (grant : Grant) (a : Arena) (n r : Nat) (a' : Arena) : Prop
  | failed (hr : r = 0) (hno : ¬ Granted grant a.heap (intended n)) (hlive : a'.live = a.live)
      (hgot : a'.got = a.got) (hasked : a'.heap.asked = intended n :: a.heap.asked)
  | found (d : Blk) (hr : r = d.addr + HEADER) (hd : d.size = n) (hlive : a'.live = d :: a.live)
      (hgot : a'.got = a.got) (hasked : a'.heap.asked = a.heap.asked)
  | grown (d : Blk) (hr : r = d.addr + HEADER) (hd : d.size = n) (hlive : a'.live = d :: a.live)
      (hgot : a'.got = ⟨a.heap.brk, coreUnits n⟩ :: a.got)
      (hasked : a'.heap.asked = intended n :: a.heap.asked)
      (hyes : grant a.heap.brk (intended n) = true)

end Malloc

section Steps
variable {base : Nat} {a a' : Arena} {op : Op}

theorem HeapOk.congr {h : Heap} {L live got : List Blk} {m : Bytes}
    (hok : HeapOk base h L live got)
    (hm : ∀ p ∈ base :: (L ++ live).map Blk.addr, ∀ x, p ≤ x → x < p + HEADER → m x = h.mem x) :
    HeapOk base { h with mem := m } L live got := by
  have hptr : ∀ p ∈ base :: (L ++ live).map Blk.addr, ptr m p = ptr h.mem p := fun p hp =>
    leGet_congr 8 _ _ p fun x h1 h2 => hm p hp x h1 (by rw [HEADER]; omega)
  have hsize : ∀ p ∈ base :: (L ++ live).map Blk.addr, size m p = size h.mem p := fun p hp =>
    leGet_congr 4 _ _ (p+8) fun x h1 h2 => hm p hp x (by omega) (by rw [HEADER]; omega)
  have hmem : ∀ b ∈ L ++ live, b.addr ∈ base :: (L ++ live).map Blk.addr := fun b hb =>
    List.mem_cons_of_mem _ (List.mem_map_of_mem hb)
  exact { hok with
    chain := hok.chain.move (hptr base List.mem_cons_self)
      fun b hb => hptr b.addr (hmem b (List.mem_append_left live hb))
    baseSize := (hsize base List.mem_cons_self).trans hok.baseSize
    sizes := fun b hb => by
      dsimp only
      rw [hsize b.addr (hmem b hb)]
      exact hok.sizes b hb }

theorem HeapOk.payload {h : Heap} {L live got : List Blk} (hok : HeapOk base h L live got)
    {d : Blk} (hd : d ∈ live) {p : Nat} (hp : p ∈ base :: (L ++ live).map Blk.addr) :
    p ≤ d.addr ∨ d.fin ≤ p := by
  have hmem : d ∈ L ++ live := List.mem_append_right L hd
  rcases List.mem_cons.mp hp with rfl | hp
  · have := (hok.bounds hmem).1
    omega
  · obtain ⟨b, hb, rfl⟩ := List.mem_map.mp hp
    by_cases heq : b = d
    · exact Or.inl (le_of_eq (congrArg Blk.addr heq))
    · have : Std.Symm (Apart Blk.addr Blk.fin) := ⟨fun _ _ h => Or.symm h⟩
      have hap := hok.apart.forall hb hmem heq
      have hfin : b.addr ≤ b.fin := Nat.le_add_right _ _
      rw [Apart] at hap
      omega

theorem HeapOk.write {h : Heap} {L live got : List Blk} (hok : HeapOk base h L live got) {d : Blk}
    (hd : d ∈ live) {x : Nat} (hlo : d.addr + HEADER ≤ x) (hhi : x < d.fin) (v : UInt8) :
    HeapOk base { h with mem := update h.mem x v } L live got := by
  apply hok.congr
  intro p hp y h1 h2
  apply update_of_ne
  rintro rfl
  -- A header on `x` would begin in the block's payload or be the block's own.
  rcases List.mem_cons.mp hp with rfl | hmem
  · have := (hok.bounds (List.mem_append_right L hd)).1
    omega
  · obtain ⟨b, hb, rfl⟩ := List.mem_map.mp hmem
    rcases hok.payload hd hp with h3 | h3
    · by_cases heq : b.addr = d.addr
      · omega
      · have hclear := hok.headers hp (List.mem_cons_of_mem _
          (List.mem_map_of_mem (List.mem_append_right L hd))) heq
        rw [Clear] at hclear
        omega
    · omega

/-- `free` of an allocated block ends and keeps the heap in order. -/
theorem HeapOk.free_returns {L : List Blk} (hok : HeapOk base a.heap L a.live a.got) {b : Blk}
    (hb : b ∈ a.live) (hunits : Umalloc.units L + b.size < 2^32) :
    ∃ a' L', a.Returns base (.free b) a' ∧ HeapOk base a'.heap L' a'.live a'.got ∧
      a'.live = a.live.erase b ∧ a'.got = a.got := by
  obtain ⟨h', L', hfree, hok', _⟩ := (hok.perm (List.perm_cons_erase hb)).free_spec hunits
  refine ⟨⟨h', a.live.erase b, a.got⟩, L', ⟨2*L.length + 2, fun fuel hfuel => ?_⟩, hok', rfl, rfl⟩
  rw [Arena.step, hfree fuel hfuel]
  rfl

/-- The memory obtained stays below `2^32` units. -/
def Arena.within (a : Arena) : Op → Prop
  | .malloc nbytes grant => grant a.heap.brk (intended (nunits nbytes)) = true →
      units a.got + coreUnits (nunits nbytes) < 2^32
  | _ => True

theorem HeapOk.units_le {h : Heap} {L live got : List Blk} (hok : HeapOk base h L live got) :
    Umalloc.units L + Umalloc.units live = Umalloc.units got := by
  have := hok.units
  rwa [units_append] at this

theorem units_le_of_mem {l : List Blk} {b : Blk} (h : b ∈ l) : b.size ≤ units l := by
  have := units_perm (List.perm_cons_erase h)
  rw [units_cons] at this
  omega

/-- A free block is large enough for the request. -/
def Arena.Serves (base : Nat) (a : Arena) (nbytes : Nat) : Prop :=
  ∃ L, HeapOk base (Umalloc.init base a.heap) L a.live a.got ∧ ∃ b ∈ L, nunits nbytes ≤ b.size

theorem ArenaOk.malloc_returns (hok : ArenaOk base a) {nbytes : Nat} {grant : Grant}
    (hbytes : nbytes < 2^32) (hsmall : a.Serves base nbytes ∨ nbytes ≤ 2^31 - 32)
    (hwithin : a.within (.malloc nbytes grant)) :
    ∃ r a' N, (∀ fuel, N ≤ fuel → malloc base grant fuel a.heap nbytes = some (r, a'.heap) ∧
        a.step base fuel (.malloc nbytes grant) = some a') ∧
      a.Malloced base grant (nunits nbytes) r a' ∧ ∃ L', HeapOk base a'.heap L' a'.live a'.got := by
  obtain ⟨hinit, hbrk, hasked⟩ := hok.init
  obtain ⟨L, hL, hsmall⟩ : ∃ L, HeapOk base (Umalloc.init base a.heap) L a.live a.got ∧
      ((∃ b ∈ L, nunits nbytes ≤ b.size) ∨ coreUnits (nunits nbytes)*HEADER < 2^31) := by
    rcases hsmall with ⟨L, hL, hserves⟩ | hsmall
    · exact ⟨L, hL, Or.inl hserves⟩
    · obtain ⟨L, hL⟩ := hinit
      exact ⟨L, hL, Or.inr (coreUnits_small hsmall)⟩
  have hlimit : grant a.heap.brk (intended (nunits nbytes)) = true →
      units L + coreUnits (nunits nbytes) < 2^32 := by
    intro hyes
    have h1 := hwithin hyes
    have h2 := hL.units_le
    omega
  have hn : 0 < nunits nbytes := by
    rw [nunits_eq hbytes]
    omega
  have hgranted : Granted grant (Umalloc.init base a.heap) = Granted grant a.heap := by
    unfold Granted
    rw [hbrk]
  obtain ⟨_, hpos⟩ := coreUnits_ge (nunits nbytes)
  obtain ⟨N, r, h', hloop, halloc⟩ := hL.mallocLoop_ends hok.1 hn hsmall (by rw [hbrk]; exact hlimit)
  have hmalloc : ∀ fuel, N ≤ fuel → malloc base grant fuel a.heap nbytes = some (r, h') :=
    fun fuel hfuel => hloop fuel hfuel
  refine ⟨r, ⟨h', if r = 0 then a.live else ⟨r - HEADER, nunits nbytes⟩ :: a.live,
    if h'.brk = a.heap.brk then a.got
      else ⟨a.heap.brk, (h'.brk - a.heap.brk)/HEADER⟩ :: a.got⟩, N, fun fuel hfuel => ?_, ?_⟩
  · refine ⟨hmalloc fuel hfuel, ?_⟩
    rw [Arena.step, hmalloc fuel hfuel]
    rfl
  -- The run's record of the block that `malloc` has returned.
  have hblock (d : Blk) (hr : r = d.addr + HEADER) (hd : d.size = nunits nbytes) :
      r ≠ 0 ∧ (⟨r - HEADER, nunits nbytes⟩ : Blk) = d := by
    rw [hr, Nat.add_sub_cancel, ← hd, HEADER]
    exact ⟨by omega, rfl⟩
  cases halloc with
  | failed L' hr hno hbrk' hasked' hok' =>
    rw [hbrk] at hbrk'
    rw [hgranted] at hno
    rw [if_pos hr, if_pos hbrk']
    exact ⟨.failed hr hno rfl rfl (hasked ▸ hasked'), L', hok'⟩
  | found L' d hr hd hbrk' hasked' hok' =>
    rw [hbrk] at hbrk'
    obtain ⟨hr0, hd'⟩ := hblock d hr hd
    rw [if_neg hr0, if_pos hbrk', hd']
    exact ⟨.found d hr hd rfl rfl (hasked ▸ hasked'), L', hok'⟩
  | grown L' d hr hd hyes hbrk' hasked' hok' =>
    rw [hbrk] at hbrk' hok' hyes
    obtain ⟨hr0, hd'⟩ := hblock d hr hd
    have hne : h'.brk ≠ a.heap.brk := by
      rw [hbrk', HEADER]
      omega
    have hsize : (h'.brk - a.heap.brk)/HEADER = coreUnits (nunits nbytes) := by
      rw [hbrk', Nat.add_sub_cancel_left, HEADER, Nat.mul_div_cancel_left _ (by omega)]
    rw [if_neg hr0, if_neg hne, hd', hsize]
    exact ⟨.grown d hr hd rfl rfl (hasked ▸ hasked') hyes, L', hok'⟩

theorem ArenaOk.step (hok : ArenaOk base a) (hunits : units a.got < 2^32) (hen : a.enabled op)
    (hwithin : a.within op) (hret : a.Returns base op a') :
    ArenaOk base a' ∧ units a'.got < 2^32 := by
  cases op with
  | malloc nbytes grant =>
    have hbytes := bytes_le hen
    obtain ⟨r, a1, N, hreturns, halloc, hok'⟩ :=
      hok.malloc_returns (by omega) (Or.inr hbytes) hwithin
    have heq : a1 = a' := Arena.Returns.unique ⟨N, fun fuel hfuel => (hreturns fuel hfuel).2⟩ hret
    subst heq
    refine ⟨⟨hok.1, Or.inr hok'⟩, ?_⟩
    cases halloc with
    | failed hr hno hlive hgot =>
      rw [hgot]
      exact hunits
    | found d hr hd hlive hgot =>
      rw [hgot]
      exact hunits
    | grown d hr hd hlive hgot _ hyes =>
      rw [hgot, units_cons]
      have : units a.got + coreUnits (nunits nbytes) < 2^32 := hwithin hyes
      rw [Nat.add_comm]
      exact this
  | free b =>
    obtain ⟨hbase, ⟨_, hlive, _⟩ | ⟨L, hL⟩⟩ := hok
    · rw [Arena.enabled, hlive] at hen
      exact absurd hen List.not_mem_nil
    · have h1 := hL.units_le
      have h2 := units_le_of_mem hen
      obtain ⟨a1, L', hreturns, hok', _, hgot⟩ := hL.free_returns hen (by omega)
      have heq : a1 = a' := hreturns.unique hret
      subst heq
      rw [hgot]
      exact ⟨⟨hbase, Or.inr ⟨L', hok'⟩⟩, hunits⟩
  | write x v =>
    obtain ⟨d, hd, hlo, hhi⟩ := hen
    obtain ⟨hbase, ⟨_, hlive, _⟩ | ⟨L, hL⟩⟩ := hok
    · rw [hlive] at hd
      exact absurd hd List.not_mem_nil
    · have heq := Arena.Returns.unique ⟨0, fun _ _ => rfl⟩ hret
      subst heq
      exact ⟨⟨hbase, Or.inr ⟨L, hL.write hd hlo hhi v⟩⟩, hunits⟩
  | sbrk k =>
    have heq := Arena.Returns.unique ⟨0, fun _ _ => rfl⟩ hret
    subst heq
    have hlt : a.heap.brk + k < 2^64 := hen
    refine ⟨⟨hok.1, ?_⟩, hunits⟩
    rcases hok.2 with ⟨h1, h2, h3, h4, _⟩ | ⟨L, hL⟩
    · exact Or.inl ⟨h1, h2, h3, h4.trans (Nat.le_add_right _ _), hlt⟩
    · refine Or.inr ⟨L, { hL with
        region := fun g hg => ?_
        brk := ⟨hL.brk.1.trans (Nat.le_add_right _ _), hlt⟩ }⟩
      exact ⟨(hL.region g hg).1, (hL.region g hg).2.trans (Nat.le_add_right _ _)⟩

theorem Reachable.arenaOk (h : Reachable base Arena.within a) :
    ArenaOk base a ∧ units a.got < 2^32 := by
  induction h with
  | start m brk hbase hbrk hlt =>
    exact ⟨⟨hbase, Or.inl ⟨rfl, rfl, rfl, hbrk, hlt⟩⟩, Nat.two_pow_pos 32⟩
  | step _ hen hwithin hret ih => exact ih.1.step ih.2 hen hwithin hret

end Steps

/-- The heap as its user sees it. The free list is circular, goes through the free blocks
`L` once each in the order of their addresses, and no two of them touch; free and allocated
blocks lie apart from each other, in memory obtained from `sbrk`; no header lies in the part
of an allocated block that its owner uses; and no unit is lost. -/
structure Sound (base : Nat) (h : Heap) (L live got : List Blk) : Prop where
  circular : Chain Blk.addr (ptr h.mem) base L base
  ascending : (base :: L.map Blk.addr).Pairwise (· < ·)
  sizes : ∀ b ∈ L ++ live, size h.mem b.addr = b.size ∧ 0 < b.size
  coalesced : L.Pairwise fun a b => a.fin < b.addr
  disjoint : (L ++ live).Pairwise (Apart Blk.addr Blk.fin)
  headers : ∀ d ∈ live, ∀ p ∈ base :: (L ++ live).map Blk.addr,
    p + HEADER ≤ d.addr + HEADER ∨ d.fin ≤ p
  inside : ∀ b ∈ L ++ live, ∀ x, b.addr ≤ x → x < b.fin → ∃ g ∈ got, g.addr ≤ x ∧ x < g.fin
  total : units (L ++ live) = units got

theorem HeapOk.sound {base : Nat} {h : Heap} {L live got : List Blk}
    (hok : HeapOk base h L live got) : Sound base h L live got where
  circular := hok.chain
  ascending := hok.nodes
  sizes := hok.sizes
  coalesced := hok.sorted
  disjoint := hok.apart
  headers := fun _ hd _ hp => (hok.payload hd hp).imp_left fun h => Nat.add_le_add_right h _
  inside := fun _ hb _ hlo hhi => hok.inside hb hlo hhi
  total := hok.units

/-- In every run that obtains fewer than `2^32` units from `sbrk`, the heap is sound, every
`free` of an allocated block returns, and so does every `malloc`: with 0 where `sbrk` does not
grant more memory, or with a block of at least the size asked for that is sound among the
others. -/
theorem malloc_never_overlaps {base : Nat} {a : Arena} (h : Reachable base Arena.within a) :
    ((a.heap.freep = 0 ∧ a.live = [] ∧ a.got = []) ∨ ∃ L, Sound base a.heap L a.live a.got) ∧
    (∀ b ∈ a.live, ∃ a' L, a.Returns base (.free b) a' ∧ a'.live = a.live.erase b ∧
      a'.got = a.got ∧ Sound base a'.heap L a'.live a'.got) ∧
    ∀ nbytes grant, (nbytes/16 + 2)*16 < 2^31 → a.within (.malloc nbytes grant) →
      ∃ r a' N L, (∀ fuel, N ≤ fuel → malloc base grant fuel a.heap nbytes = some (r, a'.heap) ∧
          a.step base fuel (.malloc nbytes grant) = some a') ∧
        Sound base a'.heap L a'.live a'.got ∧
        (r = 0 ∧ a'.live = a.live ∧ ¬ Granted grant a.heap (intended (nunits nbytes)) ∨
          ∃ d, r = d.addr + HEADER ∧ a'.live = d :: a.live ∧ nbytes ≤ HEADER*(d.size - 1)) := by
  obtain ⟨hok, hunits⟩ := h.arenaOk
  refine ⟨?_, ?_, ?_⟩
  · rcases hok.2 with ⟨h1, h2, h3, _⟩ | ⟨L, hL⟩
    · exact Or.inl ⟨h1, h2, h3⟩
    · exact Or.inr ⟨L, hL.sound⟩
  · intro b hb
    rcases hok.2 with ⟨_, hlive, _⟩ | ⟨L, hL⟩
    · rw [hlive] at hb
      exact absurd hb List.not_mem_nil
    · have h1 := hL.units_le
      have h2 := units_le_of_mem hb
      obtain ⟨a', L', hreturns, hok', hlive, hgot⟩ := hL.free_returns hb (by omega)
      exact ⟨a', L', hreturns, hlive, hgot, hok'.sound⟩
  · intro nbytes grant hbytes hwithin
    have hbytes := bytes_le hbytes
    obtain ⟨r, a', N, hreturns, halloc, L, hL⟩ :=
      hok.malloc_returns (by omega) (Or.inr hbytes) hwithin
    refine ⟨r, a', N, L, hreturns, hL.sound, ?_⟩
    have hroom := bytes_le_units (show nbytes < 2^32 by omega)
    cases halloc with
    | failed hr hno hlive _ => exact Or.inl ⟨hr, hlive, hno⟩
    | found d hr hd hlive _ => exact Or.inr ⟨d, hr, hlive, by rw [hd]; exact hroom⟩
    | grown d hr hd hlive _ _ => exact Or.inr ⟨d, hr, hlive, by rw [hd]; exact hroom⟩

section More
variable {base fuel ffuel n : Nat} {grant : Grant} {h h' : Heap} {a a' : Arena} {op : Op} (k : Nat)

theorem freeLoop_more {m : Bytes} {bp p q : Nat} (hq : freeLoop m bp fuel p = some q) :
    freeLoop m bp (fuel+k) p = some q := by
  induction fuel generalizing p with
  | zero => cases hq
  | succ fuel ih =>
    rw [Nat.add_right_comm]
    rw [freeLoop] at hq ⊢
    split_ifs at hq ⊢
    · exact hq
    · exact hq
    · exact ih hq

theorem free_more {ap : Nat} (hr : free fuel h ap = some h') : free (fuel+k) h ap = some h' := by
  obtain ⟨p, hp, rfl⟩ := Option.map_eq_some_iff.mp hr
  exact Option.map_eq_some_iff.mpr ⟨p, freeLoop_more k hp, rfl⟩

theorem morecore_more {r : Nat × Heap} (hr : morecore grant fuel h n = some r) :
    morecore grant (fuel+k) h n = some r := by
  unfold morecore at hr ⊢
  dsimp only at hr ⊢
  rcases hs : sbrk grant h (toInt (coreUnits n*HEADER)) with ⟨_ | p, h1⟩
  · rw [hs] at hr
    exact hr
  · rw [hs] at hr
    obtain ⟨h1, hfree, rfl⟩ := Option.map_eq_some_iff.mp hr
    exact Option.map_eq_some_iff.mpr ⟨h1, free_more k hfree, rfl⟩

theorem mallocLoop_more {prevp p : Nat} {r : Nat × Heap}
    (hr : mallocLoop grant ffuel n fuel h prevp p = some r) :
    mallocLoop grant (ffuel+k) n (fuel+k) h prevp p = some r := by
  induction fuel generalizing h prevp p with
  | zero => cases hr
  | succ fuel ih =>
    rw [Nat.add_right_comm]
    rw [mallocLoop] at hr ⊢
    split_ifs at hr ⊢
    · exact hr
    · cases hm : morecore grant ffuel h n with
      | none =>
        rw [hm] at hr
        cases hr
      | some region =>
        rw [hm] at hr
        rw [morecore_more k hm]
        dsimp only at hr ⊢
        split_ifs at hr ⊢
        · exact hr
        · exact ih hr
    · exact ih hr

/-- A call that ends ends in the same way with more fuel. -/
theorem Arena.returns_of_step (hstep : a.step base fuel op = some a') : a.Returns base op a' := by
  refine ⟨fuel, fun fuel' hle => ?_⟩
  obtain ⟨k, rfl⟩ := Nat.exists_eq_add_of_le hle
  cases op with
  | malloc nbytes grant =>
    obtain ⟨r, hr, rfl⟩ := Option.map_eq_some_iff.mp hstep
    exact Option.map_eq_some_iff.mpr ⟨r, mallocLoop_more k hr, rfl⟩
  | free b =>
    obtain ⟨h, hfree, rfl⟩ := Option.map_eq_some_iff.mp hstep
    exact Option.map_eq_some_iff.mpr ⟨h, free_more k hfree, rfl⟩
  | write x v => exact hstep
  | sbrk n => exact hstep

end More

instance Arena.decidableEnabled (a : Arena) (op : Op) : Decidable (a.enabled op) :=
  match op with
  | .malloc .. | .sbrk .. => inferInstanceAs (Decidable (_ < _))
  | .free .. => inferInstanceAs (Decidable (_ ∈ _))
  | .write .. => inferInstanceAs (Decidable (∃ _ ∈ _, _))

instance Arena.decidableWithin (a : Arena) (op : Op) : Decidable (a.within op) :=
  match op with
  | .malloc .. => inferInstanceAs (Decidable (_ → _))
  | .free .. | .write .. | .sbrk .. => inferInstanceAs (Decidable True)

def Arena.run (ok : Arena → Op → Prop) [∀ a op, Decidable (ok a op)] (base fuel : Nat) :
    List Op → Arena → Option Arena
  | [], a => some a
  | op :: ops, a =>
    if a.enabled op ∧ ok a op then (a.step base fuel op).bind (run ok base fuel ops) else none

theorem Reachable.run {ok : Arena → Op → Prop} [∀ a op, Decidable (ok a op)] {base fuel : Nat}
    {a a' : Arena} {ops : List Op} (h : Reachable base ok a)
    (hrun : a.run ok base fuel ops = some a') : Reachable base ok a' := by
  induction ops generalizing a with
  | nil =>
    cases hrun
    exact h
  | cons op ops ih =>
    rw [Arena.run] at hrun
    split_ifs at hrun with hen
    obtain ⟨a1, hstep, hrun⟩ := Option.bind_eq_some_iff.mp hrun
    exact ih (h.step hen.1 hen.2 (Arena.returns_of_step hstep)) hrun

def unused : Arena := ⟨⟨fun _ => 0, 0, 8192, []⟩, [], []⟩

theorem unused_reachable (ok : Arena → Op → Prop) : Reachable 4096 ok unused :=
  .start _ _ (by decide) (by decide) (by decide)

/-- A program that asks for 100 and for 200 bytes, and then frees the first block. -/
theorem malloc_never_overlaps_two : ∃ (a : Arena) (d e : Blk) (L : List Blk), a.live = [e, d] ∧ 100 ≤ HEADER*(d.size - 1) ∧
    200 ≤ HEADER*(e.size - 1) ∧ Sound 4096 a.heap L [e, d] a.got ∧
    ∃ (a' : Arena) (L' : List Blk), a.Returns 4096 (.free d) a' ∧ a'.live = [e] ∧ Sound 4096 a'.heap L' [e] a'.got := by
  have hexec : ((Arena.run Arena.within 4096 5 [.malloc 100 fun _ _ => true, .malloc 200 fun _ _ => true]
      unused).any fun a => decide (a.heap.freep ≠ 0 ∧ a.live = [⟨73376, 14⟩, ⟨73600, 8⟩])) = true := by
    decide +kernel
  obtain ⟨a, hrun, hend⟩ := (Option.any_eq_true _ _).mp hexec
  obtain ⟨hused, hlive⟩ := of_decide_eq_true hend
  obtain ⟨hsound, hfree, _⟩ := malloc_never_overlaps ((unused_reachable _).run hrun)
  obtain ⟨L, hsound⟩ := hsound.resolve_left fun hc => hused hc.1
  obtain ⟨a', L', hret, hlive', _, hsound'⟩ := hfree ⟨73600, 8⟩ (by rw [hlive]; decide)
  rw [hlive] at hsound hlive'
  have hone : a'.live = [⟨73376, 14⟩] := hlive'.trans (by decide)
  rw [hone] at hsound'
  exact ⟨a, ⟨73600, 8⟩, ⟨73376, 14⟩, L, hlive, by decide, by decide, hsound, a', L', hret, hone, hsound'⟩

/-! The argument of `sbrk` is an `int`. -/

section Requests
variable {base : Nat} {grant : Grant}

/-- What `malloc(nbytes)` returns in a heap that has become `a`: 0, or the address of `nbytes`
bytes that have been obtained from `sbrk`. -/
def Usable (a : Arena) (nbytes r : Nat) : Prop :=
  r = 0 ∨ ∃ d ∈ a.live, r = d.addr + HEADER ∧ r + nbytes ≤ d.fin ∧
    ∀ x, r ≤ x → x < r + nbytes → ∃ g ∈ a.got, g.addr ≤ x ∧ x < g.fin

/-- `malloc(nbytes)` returns memory it has, and calls `sbrk` for the number of bytes that is
meant, if at all. -/
def SafeMalloc (base : Nat) (grant : Grant) (a : Arena) (nbytes : Nat) : Prop :=
  ∃ r a' N, (∀ fuel, N ≤ fuel → malloc base grant fuel a.heap nbytes = some (r, a'.heap) ∧
      a.step base fuel (.malloc nbytes grant) = some a') ∧ Usable a' nbytes r ∧
    (a'.heap.asked = a.heap.asked ∨ a'.heap.asked = intended (nunits nbytes) :: a.heap.asked)

theorem toInt_lt (k : Nat) : toInt k < 2^31 := by
  unfold toInt
  split_ifs <;> omega

/-- `malloc` is safe if and only if a free block is large enough, or the number of bytes that
it asks `sbrk` for is an `int`. -/
theorem malloc_safe {a : Arena} {nbytes : Nat} (hok : ArenaOk base a) (hbytes : nbytes < 2^32)
    (hwithin : a.within (.malloc nbytes grant)) :
    SafeMalloc base grant a nbytes ↔ a.Serves base nbytes ∨ nbytes ≤ 2^31 - 32 := by
  have hunits := nunits_eq hbytes
  constructor
  · rintro ⟨r, a', N, hreturns, _, hasked⟩
    by_contra hno
    obtain ⟨hserves, hlarge⟩ := not_or.mp hno
    obtain ⟨⟨L, hL⟩, _, hsame⟩ := hok.init
    have hall : ∀ b ∈ L, b.size < nunits nbytes :=
      fun b hb => Nat.lt_of_not_le fun hc => hserves ⟨L, hL, b, hb, hc⟩
    have hasks := hL.mallocLoop_asks (by omega) hall (lt_of_lt_of_le (Nat.lt_succ_self _) (le_max_right N _))
      (hreturns (max N (L.length+1)) (le_max_left ..)).1
    rw [hsame] at hasks
    rcases hasked with hasked | hasked
    · rw [hasked] at hasks
      have := hasks.length_le
      rw [List.length_cons] at this
      omega
    · rw [hasked] at hasks
      have hhead := (List.cons.inj (hasks.eq_of_length rfl)).1
      have hlt := toInt_lt (coreUnits (nunits nbytes)*HEADER)
      have hge := (coreUnits_ge (nunits nbytes)).1
      rw [hhead, intended, HEADER] at hlt
      omega
  · intro hcond
    obtain ⟨r, a', N, hreturns, halloc, L, hL⟩ := hok.malloc_returns hbytes hcond hwithin
    have hblock (d : Blk) (hr : r = d.addr + HEADER) (hd : d.size = nunits nbytes)
        (hmem : d ∈ a'.live) : Usable a' nbytes r := by
      have hfin : r + nbytes ≤ d.fin := by
        have hroom := bytes_le_units hbytes
        rw [Blk.fin, hd, hr]
        rw [HEADER] at *
        omega
      refine Or.inr ⟨d, hmem, hr, hfin, fun x hlo hhi => ?_⟩
      exact hL.inside (List.mem_append_right L hmem) (by omega) (by omega)
    refine ⟨r, a', N, hreturns, ?_⟩
    cases halloc with
    | failed hr _ _ _ hasked => exact ⟨Or.inl hr, Or.inr hasked⟩
    | found d hr hd hlive _ hasked => exact ⟨hblock d hr hd (hlive ▸ List.mem_cons_self), Or.inl hasked⟩
    | grown d hr hd hlive _ hasked _ =>
      exact ⟨hblock d hr hd (hlive ▸ List.mem_cons_self), Or.inr hasked⟩

end Requests

/-- A request for 100 bytes in an unused heap. -/
theorem malloc_safe_hundred : SafeMalloc 4096 (fun _ _ => true) unused 100 :=
  (malloc_safe (unused_reachable Arena.within).arenaOk.1 (by decide)
    ((by decide +kernel : unused.within (.malloc 100 fun _ _ => true)))).mpr (Or.inr (by decide))

/-- `malloc(2^32 - 1)` calls `sbrk(16)` and returns the new break: none of the bytes is there. -/
theorem malloc_wraps : (malloc 4096 (fun _ _ => true) 8 unused.heap (2^32-1)).map
    (fun r => (r.1, r.2.brk, r.2.asked)) = some (8208, 8208, [16]) ∧
    intended (nunits (2^32-1)) = 2^32 + 16 := by
  decide +kernel

/-! Without the bound the size field of a header overflows: 33 blocks of `2^27 - 2` units,
all freed again, would make one free block of more than `2^32` units. -/

/-- A free list of one block holds fewer than `2^32` units. -/
theorem Sound.units_lt {base : Nat} {h : Heap} {L got : List Blk} (hs : Sound base h L [] got)
    (hback : ptr h.mem (ptr h.mem base) = base) : units got < 2^32 := by
  have hchain := hs.circular
  have htotal := hs.total
  rw [List.append_nil] at htotal
  rw [← htotal]
  cases L with
  | nil => decide
  | cons b L =>
    obtain ⟨hb, hL⟩ := hchain
    cases L with
    | nil =>
      rw [units_cons, units_nil, ← (hs.sizes b List.mem_cons_self).1]
      exact size_lt h.mem b.addr
    | cons c L =>
      have hc : c.addr = base := by
        rw [← hL.1, ← hb]
        exact hback
      have hlt := (List.pairwise_cons.mp hs.ascending).1 c.addr (by simp)
      omega

/-- Allocate 33 blocks of `2^27 - 2` units and free them all. -/
theorem malloc_loses_units :
    ∃ a, Reachable 4096 (fun _ _ => True) a ∧
      ¬ ((a.heap.freep = 0 ∧ a.live = [] ∧ a.got = []) ∨
        ∃ L, Sound 4096 a.heap L a.live a.got) := by
  have hexec : ((Arena.run (fun _ _ => True) 4096 3 (List.replicate 33 (.malloc (16*(2^27 - 3)) fun _ _ => true) ++
      (List.range 33).map fun i => .free ⟨8192 + 16*(134217726*i), 134217726⟩)
      unused).any fun a => decide (a.live = [] ∧
        ptr a.heap.mem (ptr a.heap.mem 4096) = 4096 ∧ units a.got = 4429184958)) = true := by
    decide +kernel
  obtain ⟨a, hrun, hend⟩ := (Option.any_eq_true _ _).mp hexec
  obtain ⟨hlive, hback, hunits⟩ := of_decide_eq_true hend
  refine ⟨a, (unused_reachable _).run hrun, ?_⟩
  rintro (⟨_, _, hgot⟩ | ⟨L, hsound⟩)
  · rw [hgot, units_nil] at hunits
    omega
  · rw [hlive] at hsound
    have hlt := hsound.units_lt hback
    omega

end Xv6.Umalloc
