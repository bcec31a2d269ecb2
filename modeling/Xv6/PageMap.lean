import Xv6.System
import Mathlib.Data.List.Perm.Subperm

/-! A page table refines a partial map from pages to physical pages and flags,
over every sequence of the operations of `vm.c` on it, failing ones included. -/
namespace Xv6

open Function

/-- The entry of physical page `ppn` with the ten flag bits. -/
def pteWord (ppn : BitVec 52) (flags : BitVec 10) : Pte :=
  ppn.setWidth 64 <<< 10 ||| flags.setWidth 64

/-- What a page is mapped to. An entry that is zero maps nothing. -/
structure Entry where
  ppn : BitVec 52
  flags : BitVec 10
  nonzero : ¬ (ppn = 0 ∧ flags = 0)

def Entry.pa (e : Entry) : Nat := e.ppn.toNat*PGSIZE

def Entry.ofParts (ppn : BitVec 52) (flags : BitVec 10) : Option Entry :=
  if h : ppn = 0 ∧ flags = 0 then none else some ⟨ppn, flags, h⟩

abbrev PageMap := Nat → Option Entry

namespace PageMap

def words (m : PageMap) (v : Nat) : Pte := (m v).elim 0 fun e => pteWord e.ppn e.flags

def mapped (m : PageMap) (v : Nat) : Prop := ∃ e, m v = some e ∧ e.flags.getLsbD 0 = true

def mapRange (m : PageMap) (v n pa : Nat) (perm : BitVec 10) : PageMap := fun k =>
  if v ≤ k ∧ k < v+n then
    Entry.ofParts (BitVec.ofNat 52 ((pa + (k-v)*PGSIZE)/PGSIZE)) (perm ||| 1)
  else m k

def dropRange (m : PageMap) (v n : Nat) : PageMap := fun k =>
  if v ≤ k ∧ k < v+n then none else m k

def rewrite (m : PageMap) (v : Nat) (clear set : BitVec 10) : PageMap :=
  update m v ((m v).bind fun e => Entry.ofParts e.ppn ((e.flags &&& ~~~clear) ||| set))

end PageMap

/-- `*pte = (*pte & ~clear) | set` through `walk`, for an entry that is there. -/
def rewriteFlags (pagetable va : Nat) (clear set : BitVec 10) : Prog Phys Unit := do
  match ← walk pagetable va false with
  | none => pure ()
  | some slot =>
    let s ← get
    storePte slot ((loadPte s.mem slot.1 slot.2 &&& ~~~clear.setWidth 64) ||| set.setWidth 64)

/-- What is done to a page table and to the allocator around it. -/
inductive TableOp
  | kalloc
  | kfree (pa : Nat)
  | mappages (va size pa : Nat) (perm : BitVec 10)
  | uvmunmap (va npages : Nat) (do_free : Bool)
  | uvmclear (va : Nat)
  | rewriteFlags (va : Nat) (clear set : BitVec 10)

def pageCount (va size : Nat) : Nat := (va+size-1)/PGSIZE - va/PGSIZE + 1

namespace TableOp

def touches (v : Nat) : TableOp → Prop
  | .kalloc | .kfree _ => False
  | .mappages va size _ _ => va/PGSIZE ≤ v ∧ v < va/PGSIZE + pageCount va size
  | .uvmunmap va npages _ => va/PGSIZE ≤ v ∧ v < va/PGSIZE + npages
  | .uvmclear va | .rewriteFlags va _ _ => v = va/PGSIZE

def entries (pt : Nat) (s : Phys) (v : Nat) : Pte := pteAt s.mem 2 pt (v*PGSIZE)

/-- What the callers of an operation see to. `held` are the references to pages
from `kalloc` that are not given back yet. -/
def enabled (pt : Nat) (s : Phys) (held : List Nat) : TableOp → Prop
  | .kalloc | .uvmclear _ => True
  | .kfree pa => pa ∈ held
  | .mappages va size pa perm => 1 ≤ size ∧ va+size ≤ MAXVA ∧
    ∀ v, (mappages va size pa perm).touches v → (entries pt s v).has PTE_V = false
  | .uvmunmap va npages do_free => va + npages*PGSIZE ≤ MAXVA ∧
    (∀ v, (uvmunmap va npages do_free).touches v → (entries pt s v).has PTE_V = true) ∧
    (do_free = true → (pagesOf (entries pt s) (va/PGSIZE) npages).Subperm held)
  | .rewriteFlags va _ _ => va < MAXVA ∧ entries pt s (va/PGSIZE) ≠ 0

/-- The references to pages after an operation that returned `r`. -/
def holds (pt : Nat) (s : Phys) (held : List Nat) (r : Int) : TableOp → List Nat
  | .kalloc => if r = 0 then held else r.toNat :: held
  | .kfree pa => held.erase pa
  | .uvmunmap va npages true => held.diff (pagesOf (entries pt s) (va/PGSIZE) npages)
  | _ => held

section
variable [Layout]

def run (pt : Nat) : TableOp → Prog Phys Int
  | .kalloc => do
    match ← Xv6.kalloc with
    | none => pure 0
    | some pa => pure pa
  | .kfree pa => do
    Xv6.kfree pa
    pure 0
  | .mappages va size pa perm => Xv6.mappages pt va size pa (perm.setWidth 64)
  | .uvmunmap va npages do_free => do
    Xv6.uvmunmap pt va npages do_free
    pure 0
  | .uvmclear va => do
    Xv6.uvmclear pt va
    pure 0
  | .rewriteFlags va clear set => do
    Xv6.rewriteFlags pt va clear set
    pure 0

end

end TableOp

/-- What an operation that returned `r` does to the map. A failing `mappages` has
mapped the first pages of its range. -/
def PageMap.Step (m : PageMap) : TableOp → Int → PageMap → Prop
  | .kalloc, _, m' | .kfree _, _, m' => m' = m
  | .mappages va size pa perm, r, m' => ∃ i, m' = m.mapRange (va/PGSIZE) i pa perm ∧
    (r = 0 ∧ i = pageCount va size ∨ r = -1 ∧ i < pageCount va size)
  | .uvmunmap va npages _, _, m' => m' = m.dropRange (va/PGSIZE) npages
  | .uvmclear va, _, m' => m' = m.rewrite (va/PGSIZE) 16 0
  | .rewriteFlags va clear set, _, m' => m' = m.rewrite (va/PGSIZE) clear set

/-- The map after a list of operations and their results, the last one first. -/
inductive PageMap.After : List (TableOp × Int) → PageMap → Prop
  | nil : PageMap.After [] fun _ => none
  | cons {ops : List (TableOp × Int)} {m m' : PageMap} {op : TableOp} {r : Int} :
      PageMap.After ops m → m.Step op r m' → PageMap.After ((op, r) :: ops) m'

/-- The states of a table from its `uvmcreate` on, with the references to pages
from `kalloc`, beside kernel pages `K` that nobody gives back. -/
inductive TableRun [Layout] (pt : Nat) (K : List Nat) :
    Phys → List Nat → List (TableOp × Int) → Prop
  | create {s s' : Phys} {held : List Nat} : Ledger s K held →
      uvmcreate s = .ok (some pt, s') → TableRun pt K s' held []
  | step {s s' : Phys} {held : List Nat} {ops : List (TableOp × Int)} {op : TableOp} {r : Int} :
      TableRun pt K s held ops → op.enabled pt s held → op.run pt s = .ok (r, s') →
      TableRun pt K s' (op.holds pt s held r) ((op, r) :: ops)

/-- What `walk` without `alloc` has to find for a page. -/
def Finds (s : Phys) (r : Option (Nat × Nat)) : Option Entry → Prop
  | some e => ∃ slot, r = some slot ∧ PTE2PA (loadPte s.mem slot.1 slot.2) = e.pa ∧
    PTE_FLAGS (loadPte s.mem slot.1 slot.2) = e.flags.setWidth 64
  | none => ∀ slot, r = some slot → loadPte s.mem slot.1 slot.2 = 0

/-- The table holds the map `m` and nothing else. -/
structure TableExact [Layout] (pt : Nat) (K : List Nat) (s : Phys) (held : List Nat)
    (m : PageMap) : Prop where
  found : ∀ va < MAXVA, Runs (walk pt va false) s fun r s' => s' = s ∧ Finds s r (m (va/PGSIZE))
  apart : ∀ va < MAXVA, ∀ va' < MAXVA, va/PGSIZE ≠ va'/PGSIZE → ∀ slot,
    walk pt va false s = .ok (some slot, s) → walk pt va' false s ≠ .ok (some slot, s)
  frame : ∀ (op : TableOp) (r : Int) (s' : Phys), op.enabled pt s held →
    op.run pt s = .ok (r, s') → ∀ va < MAXVA,
    ¬ op.touches (va/PGSIZE) → pteAt s'.mem 2 pt va = pteAt s.mem 2 pt va
  nodup : (tables s.mem 2 pt).Nodup
  fresh : ∀ q ∈ tables s.mem 2 pt, q ∉ held ∧ q ∉ K
  free : (∀ v, ¬ m.mapped v) → Runs (freewalk pt) s fun _ s' =>
    s'.freelist.Perm (tables s.mem 2 pt ++ s.freelist)

section Words
variable (ppn : BitVec 52) (flags : BitVec 10)

theorem pteWord_bit (k : Nat) (hk : k < 64) : (pteWord ppn flags).getLsbD k =
    if k < 10 then flags.getLsbD k else ppn.getLsbD (k-10) := by
  unfold pteWord
  simp only [BitVec.getLsbD_or, BitVec.getLsbD_shiftLeft, BitVec.getLsbD_setWidth]
  split_ifs with h
  · simp [h, hk]
  · have hf : flags.getLsbD k = false := BitVec.getLsbD_of_ge _ _ (by omega)
    simp [h, hk, hf]
    omega

theorem pteWord_pa : PTE2PA (pteWord ppn flags) = ppn.toNat*PGSIZE := by
  have hshift : pteWord ppn flags >>> 10 = ppn.setWidth 64 := by
    apply BitVec.eq_of_getLsbD_eq
    intro i hi
    rw [BitVec.getLsbD_ushiftRight, BitVec.getLsbD_setWidth]
    by_cases h : 10 + i < 64
    · rw [pteWord_bit _ _ _ h, if_neg (by omega), Nat.add_sub_cancel_left]
      simp [hi]
    · rw [BitVec.getLsbD_of_ge _ _ (by omega), BitVec.getLsbD_of_ge ppn _ (by omega)]
      simp
  have hlt := ppn.isLt
  unfold PTE2PA
  rw [hshift, BitVec.toNat_shiftLeft, BitVec.toNat_setWidth, Nat.shiftLeft_eq, PGSIZE]
  norm_num at hlt ⊢
  omega

theorem pteWord_flags : PTE_FLAGS (pteWord ppn flags) = flags.setWidth 64 := by
  apply BitVec.eq_of_getLsbD_eq
  intro k hk
  rw [bit_FLAGS, BitVec.getLsbD_setWidth, pteWord_bit _ _ _ hk]
  by_cases h : k < 10
  · simp [h, hk]
  · rw [BitVec.getLsbD_of_ge flags _ (by omega)]
    simp [h]

theorem pteWord_V : (pteWord ppn flags).has PTE_V = flags.getLsbD 0 := by
  rw [has_V, pteWord_bit _ _ _ (by decide), if_pos (by decide)]

theorem pteWord_rewrite (clear set : BitVec 10) :
    (pteWord ppn flags &&& ~~~clear.setWidth 64) ||| set.setWidth 64 =
      pteWord ppn ((flags &&& ~~~clear) ||| set) := by
  apply BitVec.eq_of_getLsbD_eq
  intro k hk
  rw [BitVec.getLsbD_or, BitVec.getLsbD_and, BitVec.getLsbD_not, BitVec.getLsbD_setWidth,
    BitVec.getLsbD_setWidth, pteWord_bit _ _ _ hk, pteWord_bit _ _ _ hk]
  by_cases h : k < 10
  · simp [h, hk]
  · rw [BitVec.getLsbD_of_ge clear _ (by omega), BitVec.getLsbD_of_ge set _ (by omega)]
    simp [h, hk]

theorem mapWord_eq (pa : Nat) (perm : BitVec 10) :
    mapWord pa (perm.setWidth 64) = pteWord (BitVec.ofNat 52 (pa/PGSIZE)) (perm ||| 1) := by
  have hpa : BitVec.ofNat 64 pa >>> 12 = (BitVec.ofNat 52 (pa/PGSIZE)).setWidth 64 := by
    apply BitVec.eq_of_toNat_eq
    rw [BitVec.toNat_ushiftRight, BitVec.toNat_setWidth, BitVec.toNat_ofNat, BitVec.toNat_ofNat,
      Nat.shiftRight_eq_div_pow, PGSIZE]
    norm_num
    omega
  have hperm : (perm ||| 1).setWidth 64 = perm.setWidth 64 ||| PTE_V := by
    apply BitVec.eq_of_getLsbD_eq
    intro k hk
    rw [BitVec.getLsbD_setWidth, BitVec.getLsbD_or, BitVec.getLsbD_or, BitVec.getLsbD_setWidth,
      bit_V]
    by_cases h : k = 0
    · subst h
      simp
    · simp [h, hk]
  unfold mapWord pteWord PA2PTE
  rw [hpa, hperm, BitVec.or_assoc]

theorem Entry.ofParts_word :
    (Entry.ofParts ppn flags).elim 0 (fun e => pteWord e.ppn e.flags) = pteWord ppn flags := by
  unfold Entry.ofParts
  split_ifs with h
  · rw [h.1, h.2]
    rfl
  · rfl

theorem Entry.word_ne_zero (e : Entry) : pteWord e.ppn e.flags ≠ 0 := by
  intro hz
  apply e.nonzero
  have hpa := pteWord_pa e.ppn e.flags
  have hfl := pteWord_flags e.ppn e.flags
  rw [hz] at hpa hfl
  constructor
  · apply BitVec.eq_of_toNat_eq
    have h0 : e.ppn.toNat*PGSIZE = 0 := hpa.symm
    exact (Nat.mul_eq_zero.mp h0).resolve_right (by decide)
  · have h0 := congrArg BitVec.toNat hfl
    rw [BitVec.toNat_setWidth, Nat.mod_eq_of_lt (e.flags.isLt.trans (by decide))] at h0
    exact BitVec.eq_of_toNat_eq h0.symm

end Words

namespace PageMap
variable (m : PageMap)

theorem words_some {v : Nat} {e : Entry} (h : m v = some e) :
    m.words v = pteWord e.ppn e.flags := by
  unfold words
  rw [h]
  rfl

theorem words_none {v : Nat} (h : m v = none) : m.words v = 0 := by
  unfold words
  rw [h]
  rfl

theorem words_V (v : Nat) : (m.words v).has PTE_V = true ↔ m.mapped v := by
  cases h : m v with
  | none =>
    rw [m.words_none h]
    refine iff_of_false (by decide) ?_
    intro hm
    obtain ⟨e, he, -⟩ := hm
    rw [h] at he
    cases he
  | some e =>
    rw [m.words_some h, pteWord_V]
    constructor
    · intro hb
      exact ⟨e, h, hb⟩
    · intro hm
      obtain ⟨e', he, hb⟩ := hm
      rw [h] at he
      cases he
      exact hb

theorem words_mapRange (v n pa : Nat) (perm : BitVec 10) :
    (m.mapRange v n pa perm).words = Xv6.mapRange m.words v n pa (perm.setWidth 64) := by
  funext k
  unfold words mapRange Xv6.mapRange
  by_cases h : v ≤ k ∧ k < v+n
  · rw [if_pos h, if_pos h, Entry.ofParts_word, mapWord_eq]
  · rw [if_neg h, if_neg h]

theorem words_dropRange (v n : Nat) : (m.dropRange v n).words = Xv6.dropRange m.words v n := by
  funext k
  unfold words dropRange Xv6.dropRange
  by_cases h : v ≤ k ∧ k < v+n
  · rw [if_pos h, if_pos h]
    rfl
  · rw [if_neg h, if_neg h]

theorem words_rewrite {v : Nat} (clear set : BitVec 10) {e : Entry} (h : m v = some e) :
    (m.rewrite v clear set).words = update m.words v
      ((m.words v &&& ~~~clear.setWidth 64) ||| set.setWidth 64) := by
  funext k
  by_cases hk : k = v
  · subst hk
    rw [update_self, m.words_some h, pteWord_rewrite, ← Entry.ofParts_word]
    unfold words rewrite
    rw [update_self, h]
    rfl
  · rw [update_of_ne hk]
    unfold words rewrite
    rw [update_of_ne hk]

theorem rewrite_none {v : Nat} (clear set : BitVec 10) (h : m v = none) :
    m.rewrite v clear set = m := by
  unfold rewrite
  rw [h, Option.bind_none, ← h]
  exact update_eq_self v m

end PageMap

variable [Layout]

section Loops
variable {pt : Nat} {F U : List Nat}

theorem uvmunmapLoop_succ (do_free : Bool) (n a : Nat) : uvmunmapLoop pt do_free (n+1) a =
    uvmunmapLoop pt do_free 1 a >>= fun _ => uvmunmapLoop pt do_free n (a+PGSIZE) := by
  simp only [uvmunmapLoop, bind_assoc]
  congr 1
  funext r
  cases r with
  | none => rfl
  | some slot =>
    cases do_free with
    | true => simp only [bind_assoc, pure_bind, if_true]
    | false => simp only [bind_assoc, pure_bind, Bool.false_eq_true, if_false]

def freed (do_free : Bool) (l : List Nat) : List Nat := if do_free then l else []

theorem uvmunmap_one {s : Phys} {v : Nat} {f : Nat → Pte} (do_free : Bool)
    (h : Maps s pt f F (freed do_free (pagesOf f v 1) ++ U)) (hv : v < VPAGES)
    (hleaf : Leaf (f v)) :
    Runs (uvmunmapLoop pt do_free 1 (v*PGSIZE)) s fun _ s' =>
      Maps s' pt (dropRange f v 1) F U := by
  have hal : (v*PGSIZE) % PGSIZE = 0 := Nat.mul_mod_left _ _
  have hunfold {Q : Unit → Phys → Prop} (hr : Runs (uvmunmap pt (v*PGSIZE) 1 do_free) s Q) :
      Runs (uvmunmapLoop pt do_free 1 (v*PGSIZE)) s Q := by
    unfold uvmunmap at hr
    rw [runs_bind, runs_panicIf] at hr
    exact hr.2
  cases do_free with
  | true =>
    apply hunfold
    refine (uvmunmap_free_spec 1 s v f h (by omega) ?_).imp fun _ s' hu => hu.maps
    intro k hk1 hk2
    rw [show k = v by omega]
    exact hleaf
  | false =>
    apply hunfold
    refine (uvmunmap_keep_spec h hv hleaf).imp ?_
    intro _ s' hu
    have hd : dropRange f v 1 = update f v 0 := by
      rw [dropRange_succ]
      funext k
      exact if_neg (by omega)
    rw [hd]
    exact hu.1

/-- `uvmunmap` of valid pages: it ends with none of them mapped, or it panics at
an entry without permissions. -/
theorem uvmunmapLoop_range (do_free : Bool) (n : Nat) : ∀ (s : Phys) (v : Nat) (f : Nat → Pte),
    Maps s pt f F (freed do_free (pagesOf f v n) ++ U) → v+n ≤ VPAGES →
    (∀ k, v ≤ k → k < v+n → (f k).has PTE_V = true) →
    Ends (uvmunmapLoop pt do_free n (v*PGSIZE)) s fun _ s' => Maps s' pt (dropRange f v n) F U := by
  induction n with
  | zero =>
    intro s v f h _ _
    apply ends_pure
    have hd : dropRange f v 0 = f := by
      funext k
      exact if_neg (by omega)
    rw [hd]
    cases do_free with
    | true => exact h
    | false => exact h
  | succ n ih =>
    intro s v f h hv hV
    have hvv : v < VPAGES := by omega
    have hVv := hV v le_rfl (by omega)
    by_cases hflags : PTE_FLAGS (f v) = PTE_V
    · -- Such an entry looks like a link to a further table.
      have hne : f v ≠ 0 := by
        intro hz
        rw [hz] at hVv
        exact absurd hVv (by decide)
      obtain ⟨slot, hl, hload⟩ := h.slot_of_ne_zero hvv hne
      intro _ s' hrun
      have hruns : Runs (uvmunmapLoop pt do_free (n+1) (v*PGSIZE)) s fun _ _ => True :=
        ⟨_, s', hrun, trivial⟩
      simp only [uvmunmapLoop, runs_bind, runs_walk_found (page_lt_MAXVA hvv), hl, runs_get,
        runs_panicIf, hload] at hruns
      exact absurd hflags hruns.2.1
    · rw [uvmunmapLoop_succ]
      have h1 : Maps s pt f F
          (freed do_free (pagesOf f v 1) ++ (freed do_free (pagesOf f (v+1) n) ++ U)) := by
        cases do_free with
        | true =>
          have hp : pagesOf f v (n+1) = pagesOf f v 1 ++ pagesOf f (v+1) n := by
            rw [pagesOf_succ, pagesOf_succ]
            rfl
          have h' : Maps s pt f F (pagesOf f v (n+1) ++ U) := h
          rw [hp, List.append_assoc] at h'
          exact h'
        | false => exact h
      apply ends_bind
      refine (uvmunmap_one do_free h1 hvv ⟨hVv, hflags⟩).ends.imp ?_
      intro _ s1 hs1
      -- The entries still to come are as they were.
      have hrest (k : Nat) (hk : v+1 ≤ k) : dropRange f v 1 k = f k := if_neg (by omega)
      have hpg : pagesOf f (v+1) n = pagesOf (dropRange f v 1) (v+1) n :=
        pagesOf_congr fun k hk _ => (hrest k hk).symm
      rw [hpg] at hs1
      have hcall := ih s1 (v+1) (dropRange f v 1) hs1 (by omega) (by
        intro k hk1 hk2
        rw [hrest k hk1]
        exact hV k (by omega) (by omega))
      rw [Nat.succ_mul] at hcall
      refine hcall.imp ?_
      intro _ s' hs'
      have hd : dropRange (dropRange f v 1) (v+1) n = dropRange f v (n+1) := by
        have h0 : dropRange f v 1 = update f v 0 := by
          rw [dropRange_succ]
          funext k
          exact if_neg (by omega)
        rw [h0, ← dropRange_succ]
      rw [← hd]
      exact hs'

end Loops

section Steps
variable {pt : Nat} {K held : List Nat} {s s' : Phys} {m : PageMap}

theorem Maps.entries (h : Maps s pt m.words K held) {v : Nat} (hv : v < 2*VPAGES) :
    TableOp.entries pt s v = m.words v := h.pte v hv

theorem Maps.kfree_user {f : Nat → Pte} {pa : Nat} (h : Maps s pt f K (pa :: held)) :
    Runs (kfree pa) s fun _ s' => Maps s' pt f K held := by
  refine (Xv6.kfree_user h.ledger).imp ?_
  intro _ s' hs
  obtain ⟨hl, hpage⟩ := hs
  refine h.of_tables ?_ hl
  intro q hq
  have hne : q ≠ pa := by
    rintro rfl
    exact (h.table_not_frame hq).2 (by simp)
  split_ifs at hpage with hin
  · rw [hpage.1]
  · rw [hpage.1, update_of_ne hne]

omit [Layout] in
theorem pageCount_le {va size : Nat} (hsize : 1 ≤ size) (h : va+size ≤ MAXVA) :
    va/PGSIZE + pageCount va size ≤ VPAGES := by
  have hlast : (va+size-1)/PGSIZE < VPAGES := page_lt_iff.mpr (by omega)
  have hle : va/PGSIZE ≤ (va+size-1)/PGSIZE := Nat.div_le_div_right (by omega)
  unfold pageCount
  omega

theorem mappages_refines {va size pa : Nat} {perm : BitVec 10} (h : Maps s pt m.words K held)
    (he : (TableOp.mappages va size pa perm).enabled pt s held) :
    Runs ((TableOp.mappages va size pa perm).run pt) s fun r s' =>
      ∃ m', m.Step (.mappages va size pa perm) r m' ∧ Maps s' pt m'.words K held := by
  obtain ⟨hsize, hva, hfree⟩ := he
  have hn := pageCount_le hsize hva
  have hcount : (PGROUNDDOWN (va+size-1) - PGROUNDDOWN va)/PGSIZE + 1 = pageCount va size := by
    unfold PGROUNDDOWN pageCount
    rw [← Nat.sub_mul, page_div]
  change Runs (mappagesLoop pt _ _ (va/PGSIZE*PGSIZE) pa) s _
  rw [hcount]
  refine (mappagesLoop_spec _ s (va/PGSIZE) pa _ h hn ?_).imp ?_
  · intro k hk1 hk2
    rw [← h.entries (by omega)]
    exact hfree k ⟨hk1, hk2⟩
  · intro r s' hr
    obtain ⟨-, -, i, hm, hi⟩ := hr
    rw [← m.words_mapRange] at hm
    exact ⟨_, ⟨i, rfl, hi.imp_right fun h => ⟨h.1, h.2.1⟩⟩, hm⟩

theorem uvmunmap_refines {va npages : Nat} {do_free : Bool} (h : Maps s pt m.words K held)
    (he : (TableOp.uvmunmap va npages do_free).enabled pt s held) :
    Ends ((TableOp.uvmunmap va npages do_free).run pt) s fun r s' =>
      Maps s' pt (m.dropRange (va/PGSIZE) npages).words K
        ((TableOp.uvmunmap va npages do_free).holds pt s held r) := by
  obtain ⟨hva, hV, hown⟩ := he
  by_cases hal : va % PGSIZE = 0
  · obtain ⟨v, rfl⟩ : ∃ v, va = v*PGSIZE := ⟨va/PGSIZE, (Nat.div_mul_cancel
      (Nat.dvd_of_mod_eq_zero hal)).symm⟩
    have hV' := hV
    simp only [TableOp.touches] at hV'
    simp only [TableOp.holds, page_div] at hown hV' ⊢
    have hn : v+npages ≤ VPAGES := by
      have hM : MAXVA = VPAGES*PGSIZE := by decide
      rw [hM, ← Nat.add_mul] at hva
      exact Nat.le_of_mul_le_mul_right hva (by decide)
    have hent (k : Nat) (hk : k < v+npages) : TableOp.entries pt s k = m.words k :=
      h.entries (by omega)
    have hpages : pagesOf (TableOp.entries pt s) v npages = pagesOf m.words v npages :=
      pagesOf_congr fun k _ hk => hent k hk
    rw [m.words_dropRange]
    have hloop {U : List Nat} (hm : Maps s pt m.words K
        (freed do_free (pagesOf m.words v npages) ++ U)) :
        Ends ((TableOp.uvmunmap (v*PGSIZE) npages do_free).run pt) s fun _ s' =>
          Maps s' pt (dropRange m.words v npages) K U := by
      apply ends_bind
      have hrun := uvmunmapLoop_range do_free npages s v m.words hm hn (by
        intro k hk1 hk2
        rw [← hent k hk2]
        exact hV' k ⟨hk1, hk2⟩)
      intro _ s' hr
      refine ends_pure (hrun () s' ?_)
      unfold uvmunmap at hr
      change (do let p ← panicIf (v*PGSIZE % PGSIZE ≠ 0) "uvmunmap: not aligned" s
                 uvmunmapLoop pt do_free npages (v*PGSIZE) p.2) = _ at hr
      have hp : (panicIf (v*PGSIZE % PGSIZE ≠ 0) "uvmunmap: not aligned" : Prog Phys Unit) s =
          .ok ((), s) := by
        unfold panicIf
        rw [if_neg (by simp)]
        rfl
      rw [hp] at hr
      exact hr
    cases do_free with
    | true =>
      have hsub := hown rfl
      rw [hpages] at hsub
      refine (hloop (U := held.diff (pagesOf m.words v npages)) ?_).imp ?_
      · refine h.perm (List.Perm.refl _) ?_
        exact (List.subperm_append_diff_self_of_count_le fun x _ => hsub.count_le x).symm
      · intro _ s' hm
        change Maps s' pt _ K (held.diff (pagesOf (TableOp.entries pt s) (v*PGSIZE/PGSIZE) npages))
        rw [page_div, hpages]
        exact hm
    | false => exact hloop h
  · have hpanic : (TableOp.uvmunmap va npages do_free).run pt s =
        .error "uvmunmap: not aligned" := panics_bind (panics_bind (panicIf_panics hal))
    exact ends_of_panic hpanic

theorem Maps.rewrite (h : Maps s pt m.words K held) {va : Nat} (hva : va < MAXVA)
    {slot : Nat × Nat} (hl : lookup s.mem 2 pt va = some slot) (clear set : BitVec 10) {e : Entry}
    (he : m (va/PGSIZE) = some e) {w : Pte}
    (hw : w = (loadPte s.mem slot.1 slot.2 &&& ~~~clear.setWidth 64) ||| set.setWidth 64) :
    Maps { s with mem := setPte s.mem slot w } pt
      (m.rewrite (va/PGSIZE) clear set).words K held := by
  have hv := page_lt_iff.mpr hva
  have hl' : lookup s.mem 2 pt (va/PGSIZE*PGSIZE) = some slot := (lookup_page va).trans hl
  rw [m.words_rewrite clear set he, hw, h.load_slot hv hl']
  exact (h.store hv _ hl').1

theorem rewriteFlags_refines {va : Nat} {clear set : BitVec 10} (h : Maps s pt m.words K held)
    (he : (TableOp.rewriteFlags va clear set).enabled pt s held) :
    Runs (rewriteFlags pt va clear set) s fun _ s' =>
      Maps s' pt (m.rewrite (va/PGSIZE) clear set).words K held := by
  obtain ⟨hva, hne⟩ := he
  have hv := page_lt_iff.mpr hva
  rw [h.entries (by omega)] at hne
  obtain ⟨slot, hl, -⟩ := h.slot_of_ne_zero hv hne
  rw [lookup_page] at hl
  cases hm : m (va/PGSIZE) with
  | none => exact absurd (m.words_none hm) hne
  | some e =>
    unfold rewriteFlags
    simp only [runs_bind, runs_walk_found hva, hl, runs_get, storePte, runs_modify]
    exact h.rewrite hva hl clear set hm rfl

theorem uvmclear_refines {va : Nat} (h : Maps s pt m.words K held) :
    Ends (uvmclear pt va) s fun _ s' => Maps s' pt (m.rewrite (va/PGSIZE) 16 0).words K held := by
  by_cases hva : va < MAXVA
  · have hv := page_lt_iff.mpr hva
    intro _ s' hrun
    have hruns : Runs (uvmclear pt va) s fun _ t => t = s' := ⟨_, s', hrun, rfl⟩
    unfold uvmclear at hruns
    rw [runs_bind, runs_walk_found hva] at hruns
    cases hl : lookup s.mem 2 pt va with
    | none =>
      rw [hl] at hruns
      simp only [runs_throw] at hruns
    | some slot =>
      rw [hl] at hruns
      simp only [runs_bind, runs_get, storePte, runs_modify] at hruns
      subst hruns
      cases hm : m (va/PGSIZE) with
      | none =>
        -- The entry is zero and stays so.
        have hl' : lookup s.mem 2 pt (va/PGSIZE*PGSIZE) = some slot := (lookup_page va).trans hl
        have hzero : loadPte s.mem slot.1 slot.2 = 0 := by
          rw [h.load_slot hv hl', m.words_none hm]
        have hstore := (h.store hv 0 hl').1
        have hsame : update m.words (va/PGSIZE) 0 = m.words := by
          rw [← m.words_none hm]
          exact update_eq_self _ _
        rw [m.rewrite_none 16 0 hm, hzero, show (0 : Pte) &&& ~~~PTE_U = 0 by decide]
        rw [hsame] at hstore
        exact hstore
      | some e =>
        apply h.rewrite hva hl 16 0 hm
        exact (BitVec.or_zero).symm
  · have hpanic : uvmclear pt va s = .error "walk" :=
      panics_bind (walk_panics (Nat.le_of_not_lt hva))
    exact ends_of_panic hpanic

omit [Layout] in
theorem TableOp.holds_kalloc {pa : Nat} (h : pa ≠ 0) :
    TableOp.kalloc.holds pt s held (pa : Int) = pa :: held := by
  simp only [holds]
  rw [if_neg (by exact_mod_cast h), Int.toNat_natCast]

/-- Every operation that ends does to the map what its abstract step says. -/
theorem TableOp.run_refines (h : Maps s pt m.words K held) {op : TableOp}
    (he : op.enabled pt s held) : Ends (op.run pt) s fun r s' =>
      ∃ m', m.Step op r m' ∧ Maps s' pt m'.words K (op.holds pt s held r) := by
  cases op with
  | kalloc =>
    apply ends_bind
    refine h.kalloc.ends.imp ?_
    intro r s' hr
    cases r with
    | none => exact ends_pure ⟨m, rfl, by rw [hr.1]; exact h⟩
    | some pa =>
      have hm := hr.2.1.to_user
      have hpa := (hm.ledger.managed pa (Or.inr List.mem_cons_self)).ne_zero
      exact ends_pure ⟨m, rfl, by rw [holds_kalloc hpa]; exact hm⟩
  | kfree pa =>
    apply ends_bind
    have hm := h.perm (List.Perm.refl _) (List.perm_cons_erase he)
    exact hm.kfree_user.ends.imp fun _ s' hs => ends_pure ⟨m, rfl, hs⟩
  | mappages va size pa perm => exact (mappages_refines h he).ends
  | uvmunmap va npages do_free => exact (uvmunmap_refines h he).imp fun r s' hs => ⟨_, rfl, hs⟩
  | uvmclear va =>
    apply ends_bind
    exact (uvmclear_refines h).imp fun _ s' hs => ends_pure ⟨_, rfl, hs⟩
  | rewriteFlags va clear set =>
    apply ends_bind
    exact (rewriteFlags_refines h he).ends.imp fun _ s' hs => ends_pure ⟨_, rfl, hs⟩

omit [Layout] in
theorem PageMap.Step.frame {op : TableOp} {r : Int} {m' : PageMap} (h : m.Step op r m') {v : Nat}
    (hv : ¬ op.touches v) : m' v = m v := by
  cases op with
  | kalloc => rw [h]
  | kfree pa => rw [h]
  | mappages va size pa perm =>
    obtain ⟨i, rfl, hi⟩ := h
    refine if_neg ?_
    intro hin
    exact hv ⟨hin.1, by omega⟩
  | uvmunmap va npages do_free =>
    rw [h]
    exact if_neg hv
  | uvmclear va =>
    rw [h]
    exact update_of_ne hv _ _
  | rewriteFlags va clear set =>
    rw [h]
    exact update_of_ne hv _ _

end Steps

section Runs
variable {pt : Nat} {K held : List Nat} {s : Phys} {m : PageMap}

theorem Maps.finds (h : Maps s pt m.words K held) {va : Nat} (hva : va < MAXVA) :
    Finds s (lookup s.mem 2 pt va) (m (va/PGSIZE)) := by
  have hv := page_lt_iff.mpr hva
  cases hm : m (va/PGSIZE) with
  | none =>
    intro slot hl
    rw [h.load_slot hv ((lookup_page va).trans hl), m.words_none hm]
  | some e =>
    have hword := m.words_some hm
    have hne : m.words (va/PGSIZE) ≠ 0 := by
      rw [hword]
      exact e.word_ne_zero
    obtain ⟨slot, hl, hload⟩ := h.slot_of_ne_zero hv hne
    rw [lookup_page] at hl
    refine ⟨slot, hl, ?_, ?_⟩
    · rw [hload, hword]
      exact pteWord_pa _ _
    · rw [hload, hword]
      exact pteWord_flags _ _

theorem Maps.exact (h : Maps s pt m.words K held) : TableExact pt K s held m where
  found va hva := (runs_walk_found hva).mpr ⟨rfl, h.finds hva⟩
  apart va hva va' hva' hne slot hw hw' := by
    have hle : MAXVA ≤ VASIZE := by decide
    rw [walk_found s pt va hva] at hw
    rw [walk_found s pt va' hva'] at hw'
    injection hw with hw
    injection hw' with hw'
    obtain ⟨q, j⟩ := slot
    exact hne (same_page_of_lookup h.nodup (hva.trans_le hle) (hva'.trans_le hle)
      (Prod.mk.inj hw).1 (Prod.mk.inj hw').1)
  frame op r s' he hrun va hva hout := by
    have hv := page_lt_iff.mpr hva
    obtain ⟨m', hstep, h'⟩ := TableOp.run_refines h he r s' hrun
    have hp := h.pte (va/PGSIZE) (by omega)
    have hp' := h'.pte (va/PGSIZE) (by omega)
    have hw : m'.words (va/PGSIZE) = m.words (va/PGSIZE) := by
      unfold PageMap.words
      rw [hstep.frame hout]
    rw [← pteAt_of_same_page (page_div (va/PGSIZE)), ← pteAt_of_same_page (page_div (va/PGSIZE)),
      hp, hp', hw]
  nodup := h.nodup
  fresh q hq := (h.table_not_frame hq).symm
  free hnone := by
    refine (freewalk_invalid_spec h ?_).imp ?_
    · intro k _
      rw [← Bool.not_eq_true, m.words_V k]
      exact hnone k
    · intro _ s' hs
      exact h.ledger.spread (show Ledger s' ([] ++ K) held from hs.1) fun _ => Iff.rfl

/-- Every state of a table holds the map of the operations so far. -/
theorem TableRun.maps {ops : List (TableOp × Int)} (h : TableRun pt K s held ops) :
    ∃ m, PageMap.After ops m ∧ Maps s pt m.words K held := by
  induction h with
  | create hl hrun =>
    have hm := ((uvmcreate_spec hl).of_eq hrun).2
    exact ⟨_, PageMap.After.nil, hm.2.2⟩
  | step _ he hrun ih =>
    obtain ⟨m, hm, hmaps⟩ := ih
    obtain ⟨m', hstep, hmaps'⟩ := TableOp.run_refines hmaps he _ _ hrun
    exact ⟨m', PageMap.After.cons hm hstep, hmaps'⟩

/-- A page table refines the map that its operations describe. -/
theorem table_refines_map {pt : Nat} {K held : List Nat} {s : Phys} {ops : List (TableOp × Int)}
    (h : TableRun pt K s held ops) : ∃ m, PageMap.After ops m ∧ TableExact pt K s held m := by
  obtain ⟨m, hm, hmaps⟩ := h.maps
  exact ⟨m, hm, hmaps.exact⟩

omit [Layout] in
/-- A page is taken, mapped, closed to the user, and unmapped and given back. -/
theorem table_refines_map_run : ∃ (_ : Layout) (pt pa : Nat) (K held : List Nat) (s : Phys)
    (m : PageMap), TableRun pt K s held [(.uvmunmap 0 1 true, 0), (.uvmclear 0, 0),
      (.mappages 0 PGSIZE pa 30, 0), (.kalloc, pa)] ∧
    PageMap.After [(.uvmunmap 0 1 true, 0), (.uvmclear 0, 0), (.mappages 0 PGSIZE pa 30, 0),
      (.kalloc, pa)] m ∧ TableExact pt K s held m := by
  let _ := sampleLayout
  obtain ⟨k, -, hk⟩ := exists_booted
  have hfree := hk.free
  obtain ⟨r, s0, hrun0, -, hr⟩ := uvmcreate_spec hk.inv.ledger
  cases r with
  | none => exact absurd hfree (by rw [hr.2]; decide)
  | some pt =>
  obtain ⟨hf0, -, hm0⟩ := hr
  obtain ⟨r, s1, hrun1, hr⟩ := hm0.kalloc
  rw [hf0, List.length_cons] at hfree
  cases r with
  | none => exact absurd hfree (by rw [hr.2]; decide)
  | some pa =>
  obtain ⟨hf1, hm1, -⟩ := hr
  have hm1 := hm1.to_user
  rw [hf1, List.length_cons] at hfree
  have hpa := hm1.ledger.managed pa (Or.inr List.mem_cons_self)
  have hpte : PTE2PA (mapWord pa userPerm) = pa :=
    PTE2PA_mapped_word pa userPerm hpa.1 (hpa.2.2.trans (by decide)) (by decide)
  have hrun1 : TableOp.run pt .kalloc s0 = .ok ((pa : Int), s1) := by
    change (kalloc s0 >>= _) = _
    rw [hrun1]
    rfl
  have t1 := (TableRun.create hk.inv.ledger hrun0).step (by trivial) hrun1
  rw [TableOp.holds_kalloc hpa.ne_zero] at t1
  obtain ⟨r, s2, hrun2, -, -, hlen, hcase, -⟩ :=
    mappages_spec pa userPerm hm1 (show 0 < VPAGES by decide) (by decide)
  obtain ⟨rfl, hm2⟩ := hcase.resolve_right fun hc => by
    rw [hc.2.1, List.length_nil] at hlen
    omega
  rw [Nat.zero_mul] at hrun2
  have he2 : (TableOp.mappages 0 PGSIZE pa 30).enabled pt s1 (pa :: k.mapped) := by
    refine ⟨by decide, by decide, fun v hv => ?_⟩
    have hv0 : v < 1 := hv.2
    rw [TableOp.entries, hm1.pte v (hv0.trans (by decide))]
    decide
  obtain ⟨_, s3, hrun3, hm3, -, -⟩ := uvmclear_spec hm2 (show 0 < VPAGES by decide) (by
    rw [update_self]
    exact userPte_fresh.leaf.ne_zero)
  rw [update_self, update_idem] at hm3
  have hword : UserPte (guardWord (mapWord pa userPerm)) := userPte_guard userPte_fresh
  rw [Nat.zero_mul] at hrun3
  have hrun3 : TableOp.run pt (.uvmclear 0) s2 = .ok (0, s3) := by
    change (uvmclear pt 0 s2 >>= _) = _
    rw [hrun3]
    rfl
  have hpages : pagesOf (update (fun _ => 0) 0 (guardWord (mapWord pa userPerm))) 0 1 = [pa] := by
    simp [pagesOf, guardWord_pa, hpte]
  have hent (v : Nat) (hv : v < 1) : TableOp.entries pt s3 v =
      update (fun _ => (0 : Pte)) 0 (guardWord (mapWord pa userPerm)) v := hm3.pte v (hv.trans (by decide))
  obtain ⟨_, s4, hrun4, -⟩ := uvmunmap_free_spec 1 s3 0 _ (by rw [hpages]; exact hm3) (by decide)
    (by
      intro v _ hv
      rw [Nat.lt_one_iff.mp hv, update_self]
      exact hword.leaf)
  rw [Nat.zero_mul] at hrun4
  have hrun4 : TableOp.run pt (.uvmunmap 0 1 true) s3 = .ok (0, s4) := by
    change (uvmunmap pt 0 1 true s3 >>= _) = _
    rw [hrun4]
    rfl
  have he4 : (TableOp.uvmunmap 0 1 true).enabled pt s3 (pa :: k.mapped) := by
    refine ⟨by decide, fun v hv => ?_, fun _ => ?_⟩
    · rw [hent v hv.2, Nat.lt_one_iff.mp hv.2, update_self]
      exact hword.v
    · rw [Nat.zero_div, pagesOf_congr fun v _ hv => hent v hv, hpages]
      exact (List.singleton_sublist.mpr List.mem_cons_self).subperm
  have t4 := ((t1.step he2 hrun2).step (by trivial) hrun3).step he4 hrun4
  obtain ⟨m, hm, hex⟩ := table_refines_map t4
  exact ⟨_, pt, pa, _, _, s4, m, t4, hm, hex⟩

end Runs

end Xv6
