import Mathlib.Data.List.GetD
import Xv6.UserSpace

/-! `copyout` on the page table of the running process, against a copy into
private memory. -/
namespace Xv6

open Function

def UserMem.copyoutLoop : Nat → Nat → List UInt8 → UserMem → Int × UserMem
  | 0, _, _, m => (0, m)
  | k+1, dstva, src, m =>
    if src.length = 0 then (0, m) else
    if dstva < MAXVA ∧ m.user (dstva/PGSIZE) = true then
      let n := min (PGSIZE - dstva%PGSIZE) src.length
      copyoutLoop k ((dstva/PGSIZE+1)*PGSIZE) (src.drop n)
        (m.write (dstva/PGSIZE) (dstva%PGSIZE) (src.take n))
    else (-1, m)

def UserMem.copyout (m : UserMem) (dstva : Nat) (src : List UInt8) : Int × UserMem :=
  m.copyoutLoop src.length dstva src

section Bytes
variable {m : UserMem} {va n len u : Nat}

/-- Of `len` bytes from `va` on the first `u` are on pages of the user, and the next is not. -/
structure UserMem.Upto (m : UserMem) (va len u : Nat) : Prop where
  le : u ≤ len
  user : ∀ x, x < u → m.userByte (va+x)
  stop : u < len → ¬ m.userByte (va+u)

theorem UserMem.Upto.nil : m.Upto va 0 0 :=
  ⟨le_rfl, fun x hx => absurd hx (Nat.not_lt_zero x), fun h => absurd h (Nat.lt_irrefl 0)⟩

theorem UserMem.Upto.stuck (h : ¬ m.userByte va) : m.Upto va len 0 :=
  ⟨Nat.zero_le _, fun x hx => absurd hx (Nat.not_lt_zero x), fun _ => h⟩

theorem UserMem.Upto.append (h : m.Upto va n n) (h' : m.Upto (va+n) len u) :
    m.Upto va (n+len) (n+u) := by
  refine ⟨Nat.add_le_add_left h'.le n, ?_, ?_⟩
  · intro x hx
    by_cases hin : x < n
    · exact h.user x hin
    · have hrest := h'.user (x-n) (by omega)
      rwa [Nat.add_assoc, Nat.add_sub_cancel' (by omega)] at hrest
  · intro hlt
    rw [← Nat.add_assoc]
    exact h'.stop (by omega)

theorem UserMem.Upto.all_iff (h : m.Upto va len u) :
    u = len ↔ ∀ x, x < len → m.userByte (va+x) := by
  constructor
  · intro hall x hx
    exact h.user x (by omega)
  · intro hall
    by_contra hne
    have hlt : u < len := Nat.lt_of_le_of_ne h.le hne
    exact h.stop hlt (hall u hlt)

theorem exists_upto (m : UserMem) (va len : Nat) : ∃ u, m.Upto va len u := by
  induction len with
  | zero => exact ⟨0, UserMem.Upto.nil⟩
  | succ len ih =>
    obtain ⟨u, hu⟩ := ih
    by_cases hnext : m.userByte (va+u)
    · have hall : u = len := by
        by_contra hne
        exact hu.stop (Nat.lt_of_le_of_ne hu.le hne) hnext
      rw [hall] at hu hnext
      exact ⟨len+1, hu.append ⟨le_rfl, fun x hx => by rwa [Nat.lt_one_iff.mp hx],
        fun h => absurd h (Nat.lt_irrefl 1)⟩⟩
    · exact ⟨u, Nat.le_succ_of_le hu.le, hu.user, fun _ => hnext⟩

theorem UserMem.userByte.chunk (h : m.userByte va) (hn : n ≤ PGSIZE - va%PGSIZE) :
    m.Upto va n n := by
  refine ⟨le_rfl, fun x hx => ?_, fun hlt => absurd hlt (Nat.lt_irrefl n)⟩
  obtain ⟨hlow, huser⟩ := h
  have hsame : va+x < MAXVA ∧ (va+x)/PGSIZE = va/PGSIZE := by
    have hM : MAXVA = 67108864*PGSIZE := rfl
    rw [hM] at hlow ⊢
    unfold PGSIZE at *
    omega
  exact ⟨hsame.1, by rw [hsame.2]; exact huser⟩

theorem page_after (hn : n = min (PGSIZE - va%PGSIZE) len) (hmore : n < len) :
    (va/PGSIZE+1)*PGSIZE = va+n := by
  unfold PGSIZE at *
  omega

/-- A round of the copy loops: the rest, if there is one, begins on the next page. -/
theorem UserMem.Upto.round (h : m.userByte va) (hn : n = min (PGSIZE - va%PGSIZE) len)
    (hrest : m.Upto ((va/PGSIZE+1)*PGSIZE) (len-n) u) : m.Upto va len (n+u) := by
  have hchunk := h.chunk (n := n) (by omega)
  by_cases hmore : n < len
  · rw [page_after hn hmore] at hrest
    have hall := hchunk.append hrest
    rwa [Nat.add_sub_cancel' (by omega)] at hall
  · have hu := hrest.le
    rw [show u = 0 by omega, show len = n by omega]
    exact hchunk

def UserMem.put (m : UserMem) (va : Nat) (src : List UInt8) : UserMem where
  user := m.user
  page v o := if o < PGSIZE ∧ va ≤ v*PGSIZE + o ∧ v*PGSIZE + o < va + src.length
    then src.getD (v*PGSIZE + o - va) 0 else m.page v o

theorem UserMem.put_nil (m : UserMem) (va : Nat) : m.put va [] = m := by
  apply UserMem.ext
  · rfl
  · funext v o
    change (if _ then _ else _) = _
    rw [List.length_nil, if_neg (by omega)]

theorem UserMem.put_append (m : UserMem) (va : Nat) (as bs : List UInt8) :
    m.put va (as ++ bs) = (m.put va as).put (va + as.length) bs := by
  apply UserMem.ext
  · rfl
  · funext v o
    change (if _ then _ else _) = if _ then _ else if _ then _ else _
    rw [List.length_append]
    by_cases h1 : o < PGSIZE ∧ va ≤ v*PGSIZE + o ∧ v*PGSIZE + o < va + as.length
    · rw [if_pos (by omega), if_neg (by omega), if_pos h1, List.getD_append _ _ _ _ (by omega)]
    · by_cases h2 : o < PGSIZE ∧ va + as.length ≤ v*PGSIZE + o ∧
          v*PGSIZE + o < va + as.length + bs.length
      · rw [if_pos (by omega), if_pos h2, List.getD_append_right _ _ _ _ (by omega)]
        congr 1
        omega
      · rw [if_neg (by omega), if_neg h2, if_neg h1]

theorem UserMem.write_put (m : UserMem) {va : Nat} {src : List UInt8}
    (hn : src.length ≤ PGSIZE - va%PGSIZE) :
    m.write (va/PGSIZE) (va%PGSIZE) src = m.put va src := by
  have hp : 0 < PGSIZE := by decide
  have hva := Nat.div_add_mod' va PGSIZE
  apply UserMem.ext
  · rfl
  · funext v o
    change update m.page (va/PGSIZE) (blit (m.page (va/PGSIZE)) (va%PGSIZE) src) v o =
      if _ then _ else _
    by_cases hv : v = va/PGSIZE
    · subst hv
      rw [update_self]
      unfold blit
      by_cases ho : va%PGSIZE ≤ o ∧ o < va%PGSIZE + src.length
      · rw [if_pos ho, if_pos (by omega)]
        congr 1
        omega
      · rw [if_neg ho, if_neg (by omega)]
    · rw [update_of_ne hv]
      have hout : ¬ (o < PGSIZE ∧ va ≤ v*PGSIZE + o ∧ v*PGSIZE + o < va + src.length) := by
        intro ⟨h1, h2, h3⟩
        apply hv
        have hlow : v*PGSIZE + o < (va/PGSIZE+1)*PGSIZE := by
          rw [Nat.succ_mul]
          omega
        have hle1 : va/PGSIZE ≤ v := by
          by_contra hc
          have := Nat.mul_le_mul_right PGSIZE (Nat.not_le.mp hc)
          rw [Nat.succ_mul] at this
          omega
        have hle2 : v ≤ va/PGSIZE := by
          by_contra hc
          have := Nat.mul_le_mul_right PGSIZE (Nat.succ_le_of_lt (Nat.not_le.mp hc))
          rw [Nat.succ_eq_add_one] at this
          omega
        omega
      rw [if_neg hout]

theorem UserMem.put_byte (m : UserMem) (va : Nat) (src : List UInt8) (x : Nat) :
    (m.put va src).byte x =
      if va ≤ x ∧ x < va + src.length then src.getD (x-va) 0 else m.byte x := by
  have hdm := Nat.div_add_mod' x PGSIZE
  have hlt : x%PGSIZE < PGSIZE := Nat.mod_lt _ (by decide)
  change (if _ then _ else _) = _
  rw [hdm]
  exact if_congr (and_iff_right hlt) rfl rfl

/-- `copyout` stores the bytes up to the first one that the process has no page for. -/
theorem copyoutLoop_upto (k : Nat) : ∀ (va : Nat) (src : List UInt8) (m : UserMem), src.length ≤ k →
    ∃ u, m.Upto va src.length u ∧
      m.copyoutLoop k va src = (if u = src.length then 0 else -1, m.put va (src.take u)) := by
  induction k with
  | zero =>
    intro va src m hk
    have hz : src = [] := List.eq_nil_of_length_eq_zero (by omega)
    rw [hz]
    refine ⟨0, UserMem.Upto.nil, ?_⟩
    rw [List.take_nil, UserMem.put_nil]
    rfl
  | succ k ih =>
    intro va src m hk
    unfold UserMem.copyoutLoop
    by_cases hz : src.length = 0
    · rw [if_pos hz, hz]
      refine ⟨0, UserMem.Upto.nil, ?_⟩
      rw [if_pos rfl, List.take_zero, UserMem.put_nil]
    rw [if_neg hz]
    by_cases hfirst : va < MAXVA ∧ m.user (va/PGSIZE) = true
    · rw [if_pos hfirst]
      have hpos : 0 < PGSIZE - va%PGSIZE := Nat.sub_pos_of_lt (Nat.mod_lt _ (by decide))
      set n := min (PGSIZE - va%PGSIZE) src.length with hn
      have htake : (src.take n).length = n := by
        rw [List.length_take]
        omega
      have hdrop : (src.drop n).length = src.length - n := List.length_drop
      dsimp only
      rw [m.write_put (by omega)]
      obtain ⟨u, hrest, hrun⟩ := ih ((va/PGSIZE+1)*PGSIZE) (src.drop n)
        (m.put va (src.take n)) (by omega)
      rw [hdrop] at hrest hrun
      have hu := hrest.le
      have hput : (m.put va (src.take n)).put ((va/PGSIZE+1)*PGSIZE) ((src.drop n).take u) =
          m.put va (src.take (n+u)) := by
        by_cases hmore : n < src.length
        · rw [List.take_add, UserMem.put_append, htake, page_after hn hmore]
        · rw [List.drop_eq_nil_of_le (by omega), List.take_nil, UserMem.put_nil,
            show n+u = n by omega]
      refine ⟨n+u, UserMem.Upto.round hfirst hn ⟨hu, hrest.user, hrest.stop⟩, ?_⟩
      rw [hrun, hput]
      congr 1
      exact if_congr (by omega) rfl rfl
    · refine ⟨0, UserMem.Upto.stuck hfirst, ?_⟩
      rw [if_neg hfirst, if_neg (by omega), List.take_zero, UserMem.put_nil]

theorem copyout_mapped {src : List UInt8} (h : ∀ x, x < src.length → m.userByte (va+x)) :
    m.copyout va src = (0, m.put va src) := by
  obtain ⟨u, hu, hrun⟩ := copyoutLoop_upto src.length va src m le_rfl
  rw [hu.all_iff.mpr h, if_pos rfl, List.take_length] at hrun
  exact hrun

/-- `copyout` succeeds exactly when all bytes of the range are the user's. -/
theorem copyout_result (m : UserMem) (va : Nat) (src : List UInt8) :
    ((m.copyout va src).1 = 0 ∨ (m.copyout va src).1 = -1) ∧
      ((m.copyout va src).1 = 0 ↔ ∀ i < src.length, m.userByte (va+i)) := by
  obtain ⟨u, hu, hrun⟩ := copyoutLoop_upto src.length va src m le_rfl
  rw [UserMem.copyout, hrun, ← hu.all_iff]
  by_cases hall : u = src.length
  · rw [if_pos hall]
    exact ⟨Or.inl rfl, iff_of_true rfl hall⟩
  · rw [if_neg hall]
    exact ⟨Or.inr rfl, iff_of_false (by simp) hall⟩

end Bytes

def pagesMet (dstva len : Nat) : Nat := if len = 0 then 0 else npages (dstva%PGSIZE + len)

/-- How many of the `m` pages from `v` on `copyout` has to copy before it writes to
them: those that are shared, up to the first page that is not the user's. -/
def cowNeed (f : Nat → Pte) (U : List Nat) (n : Nat) : Nat → Nat → Nat
  | _, 0 => 0
  | v, m+1 => if v < n ∧ (f v).has PTE_U = true then
      (if PTE2PA (f v) ∈ U then 1 else 0) + cowNeed f U n (v+1) m else 0

section Range
variable {f g : Nat → Pte} {U : List Nat} {n v m : Nat}

theorem cowNeed_congr (h : ∀ k, v ≤ k → g k = f k) : cowNeed g U n v m = cowNeed f U n v m := by
  induction m generalizing v with
  | zero => rfl
  | succ m ih =>
    unfold cowNeed
    rw [h v le_rfl, ih fun k hk => h k (by omega)]

theorem pagesMet_step {dstva len : Nat} (h : len ≠ 0) :
    pagesMet dstva len = pagesMet ((dstva/PGSIZE+1)*PGSIZE)
      (len - min (PGSIZE - dstva%PGSIZE) len) + 1 := by
  have hp : PGSIZE = 4096 := rfl
  unfold pagesMet npages
  rw [if_neg h]
  simp only [hp]
  split_ifs with h0
  · omega
  · omega

theorem page_below_iff {sz : Nat} (v : Nat) : v*PGSIZE < sz ↔ v < npages sz := by
  have hp : PGSIZE = 4096 := rfl
  unfold npages
  rw [hp]
  omega

end Range

theorem page_offset (va : Nat) : va - PGROUNDDOWN va = va%PGSIZE := by
  have := Nat.div_add_mod' va PGSIZE
  unfold PGROUNDDOWN
  omega

theorem page_next {va : Nat} (hva : va < MAXVA) :
    (PGROUNDDOWN va + PGSIZE) % 2^64 = (va/PGSIZE+1)*PGSIZE := by
  have h1 := page_lt_MAXVA (page_lt_iff.mpr hva)
  have h2 : MAXVA + PGSIZE < 2^64 := by decide
  unfold PGROUNDDOWN
  rw [Nat.succ_mul, Nat.mod_eq_of_lt]
  omega

variable [Layout]

/-- A round of `copyout` behind the check for copy-on-write, with all that follows. -/
def copyoutPage (mypt mysz pagetable k dstva : Nat) (src : List UInt8) : Prog Phys Int := do
  let pa0 ← walkaddr pagetable (PGROUNDDOWN dstva)
  if pa0 = 0 then pure (-1) else
  let n := min (PGSIZE - dstva%PGSIZE) src.length
  modify fun s => s.setPage pa0 (blit (s.mem pa0) (dstva%PGSIZE) (src.take n))
  copyoutLoop mypt mysz pagetable k ((dstva/PGSIZE+1)*PGSIZE) (src.drop n)

theorem copyoutLoop_succ {dstva : Nat} {src : List UInt8} (hva : dstva < MAXVA)
    (hlen : src.length ≠ 0) (mypt mysz pagetable k : Nat) :
    copyoutLoop mypt mysz pagetable (k+1) dstva src = (do
      let cow ← should_copyon_write mypt mysz dstva
      if cow then do
        let _ ← copy_on_write mypt dstva
        copyoutPage mypt mysz pagetable k dstva src
      else copyoutPage mypt mysz pagetable k dstva src) := by
  rw [copyoutLoop, if_neg hlen]
  dsimp only
  rw [page_offset, page_next hva]
  rfl

section Step
variable {s : Phys} {pt n tf v : Nat} {f : Nat → Pte} {F U : List Nat}

theorem Own.repaired_refl (h : Own s pt f F U n tf) (hv : v < n) (hw : (f v).has PTE_W = true) :
    Repaired s pt f F U n tf v f s where
  own := h
  other _ _ := rfl
  user := rfl
  mem := rfl
  frame _ _ := rfl
  pages _ hpa _ := hpa
  free := by rw [if_neg (h.write v hv hw), Nat.sub_zero]
  writable _ := hw
  shared hin := absurd hin (h.write v hv hw)
  stay _ _ := rfl
  tables := rfl

theorem Own.write_page (h : Own s pt f F U n tf) (hv : v < n) (off : Nat) (src : List UInt8) :
    Own (s.setPage (PTE2PA (f v)) (blit (s.mem (PTE2PA (f v))) off src)) pt f F U n tf ∧
      userMem (s.setPage (PTE2PA (f v)) (blit (s.mem (PTE2PA (f v))) off src)) f n =
        (userMem s f n).write v off src := by
  refine ⟨⟨h.maps.setPage (Or.inr (List.mem_append_left _ (h.page_mem hv))) _, h.map, h.nodup,
    h.write⟩, ?_⟩
  ext k
  · rfl
  · simp only [userMem, UserMem.write, setPage_mem]
    by_cases hkv : k = v
    · subst hkv
      rw [update_self, update_self, if_pos hv, if_pos hv]
    · rw [update_of_ne hkv]
      by_cases hk : k < n
      · rw [if_pos hk, if_pos hk,
          update_of_ne fun he => hkv (pagesOf_inj h.nodup hk hv he)]
      · rw [if_neg hk, if_neg hk]

theorem Own.write_frame (h : Own s pt f F U n tf) (hv : v < n)
    (hw : (f v).has PTE_W = true) (b : Bytes) : Frame s (s.setPage (PTE2PA (f v)) b) F U := by
  intro q hq
  rw [setPage_mem, update_of_ne]
  rintro rfl
  rcases hq with hq | hq | hq
  · exact h.maps.ledger.disjoint _ (List.mem_append_right _ hq)
      (List.mem_append_left _ (h.page_mem hv))
  · exact h.write v hv hw hq
  · exact hq (h.page_managed hv)

/-- What `copyout` leaves behind when the memory of the process should become `m`. -/
structure CopiedOut (s : Phys) (pt : Nat) (f : Nat → Pte) (F U : List Nat) (n tf : Nat)
    (m : UserMem) (f' : Nat → Pte) (s' : Phys) : Prop where
  own : Own s' pt f' F U n tf
  mem : userMem s' f' n = m
  frame : Frame s s' F []
  pages : ∀ pa ∈ pagesOf f' 0 n, pa ∈ U → pa ∈ pagesOf f 0 n

/-- The pages from `lo` up to `v` are all the user's. -/
def UserUpto (f : Nat → Pte) (n lo v : Nat) : Prop :=
  ∀ i, lo ≤ i → i ≤ v → i < n ∧ (f i).has PTE_U = true

/-- Where the entries of the process point after a copy to `len` bytes at `dstva`:
with too few free pages, one of the shared pages in the way stays shared. -/
structure Through (s : Phys) (f : Nat → Pte) (U : List Nat) (n dstva len : Nat) (f' : Nat → Pte) :
    Prop where
  before : ∀ k, k < dstva/PGSIZE → f' k = f k
  shared : s.freelist.length < cowNeed f U n (dstva/PGSIZE) (pagesMet dstva len) →
    ∃ v, dstva/PGSIZE ≤ v ∧ v < dstva/PGSIZE + pagesMet dstva len ∧
      UserUpto f n (dstva/PGSIZE) v ∧ PTE2PA (f v) ∈ U ∧ PTE2PA (f' v) = PTE2PA (f v)

/-- The same for a call with result `res` in private memory. Other processes see
nothing while there is a free page for every shared page in the way. -/
structure CopyoutPost (s : Phys) (pt : Nat) (f : Nat → Pte) (F U : List Nat) (n tf dstva len : Nat)
    (res : Int × UserMem) (r : Int) (s' : Phys) : Prop where
  result : r = res.1
  copied : ∃ f', CopiedOut s pt f F U n tf res.2 f' s' ∧ Through s f U n dstva len f'
  frame : cowNeed f U n (dstva/PGSIZE) (pagesMet dstva len) ≤ s.freelist.length → Frame s s' F U

/-- Nothing is copied when there are no bytes or the first page is not the user's. -/
theorem Own.copyout_done (h : Own s pt f F U n tf) {dstva len : Nat} (r : Int)
    (hz : cowNeed f U n (dstva/PGSIZE) (pagesMet dstva len) = 0) :
    CopyoutPost s pt f F U n tf dstva len (r, userMem s f n) r s :=
  ⟨rfl, ⟨f, ⟨h, rfl, fun _ _ => rfl, fun _ hpa _ => hpa⟩, fun _ _ => rfl,
    fun hlt => by omega⟩, fun _ _ _ => rfl⟩

/-- The check that `copyout` makes before each page: afterwards the page below
the size has been repaired as far as memory allows. -/
theorem Own.cow_check (h : Own s pt f F U n tf) {va sz : Nat} (hva : va < MAXVA)
    (hn : n = npages sz) :
    Runs (should_copyon_write pt sz va) s fun r s' => s' = s ∧
      (r = true → va/PGSIZE < n ∧ (f (va/PGSIZE)).has PTE_COW = true) ∧
      (r = false → va/PGSIZE < n → (f (va/PGSIZE)).has PTE_W = true) := by
  refine (should_copyon_write_spec sz h.maps hva).imp ?_
  rintro r s' ⟨rfl, rfl⟩
  have hlt : PGROUNDDOWN va < sz ↔ va/PGSIZE < n := by
    rw [hn]
    exact page_below_iff (va/PGSIZE)
  refine ⟨rfl, ?_, ?_⟩
  · intro hr
    simp only [Bool.and_eq_true, decide_eq_true_eq] at hr
    exact ⟨hlt.mp hr.1.1, hr.2⟩
  · intro hr hv
    have hu := h.map.user _ hv
    rw [decide_eq_true (hlt.mpr hv), hu.v, Bool.true_and, Bool.true_and, hu.cow] at hr
    simpa using hr

end Step

section Loop
variable {pt n tf sz : Nat} {F U : List Nat}

/-- One round of `copyout` after the check, on a page of the user. -/
theorem Repaired.copy {s s1 : Phys} {f f1 : Nat → Pte} {v : Nat}
    (h : Repaired s pt f F U n tf v f1 s1) (hv : v < n) (off : Nat) (src : List UInt8) :
    CopiedOut s pt f F U n tf ((userMem s f n).write v off src) f1
        (s1.setPage (PTE2PA (f1 v)) (blit (s1.mem (PTE2PA (f1 v))) off src)) ∧
      ((if PTE2PA (f v) ∈ U then 1 else 0) ≤ s.freelist.length →
        Frame s (s1.setPage (PTE2PA (f1 v)) (blit (s1.mem (PTE2PA (f1 v))) off src)) F U) := by
  obtain ⟨hown, hmem⟩ := h.own.write_page hv off src
  have hman := h.own.page_managed hv
  have hF : PTE2PA (f1 v) ∉ F := fun hin =>
    h.own.maps.ledger.disjoint _ (List.mem_append_right _ hin)
      (List.mem_append_left _ (h.own.page_mem hv))
  refine ⟨⟨hown, by rw [hmem, h.mem], ?_, h.pages⟩, ?_⟩
  · intro q hq
    have hne : q ≠ PTE2PA (f1 v) := by
      rintro rfl
      rcases hq with hq | hq | hq
      · exact hF hq
      · simp at hq
      · exact hq hman
    rw [setPage_mem, update_of_ne hne]
    exact h.frame q (hq.mono (List.Subset.refl _) (List.nil_subset _))
  · intro hfree q hq
    have hne : q ≠ PTE2PA (f1 v) := by
      rintro rfl
      rcases hq with hq | hq | hq
      · exact hF hq
      · obtain ⟨hin, hf⟩ := h.shared hq
        rw [if_pos hin, hf] at hfree
        simp at hfree
      · exact hq hman
    rw [setPage_mem, update_of_ne hne]
    exact h.frame q hq

/-- The part of a round after the check: it writes to a page of the user, or stops. -/
theorem copyout_round {s s1 : Phys} {f f1 : Nat → Pte} {dstva k : Nat} {src : List UInt8}
    (h : Own s pt f F U n tf) (hva : dstva < MAXVA) (hlen : src.length ≠ 0)
    (hcheck : dstva/PGSIZE < n → Repaired s pt f F U n tf (dstva/PGSIZE) f1 s1)
    (hsame : ¬ dstva/PGSIZE < n → s1 = s ∧ f1 = f)
    (hnext : ∀ t src', dstva/PGSIZE < n → Own t pt f1 F U n tf → src'.length ≤ k →
      Runs (copyoutLoop pt sz pt k ((dstva/PGSIZE+1)*PGSIZE) src') t
        (CopyoutPost t pt f1 F U n tf ((dstva/PGSIZE+1)*PGSIZE) src'.length
          ((userMem t f1 n).copyoutLoop k ((dstva/PGSIZE+1)*PGSIZE) src')))
    (hk : src.length ≤ k+1) :
    Runs (copyoutPage pt sz pt k dstva src) s1 (CopyoutPost s pt f F U n tf dstva src.length
      ((userMem s f n).copyoutLoop (k+1) dstva src)) := by
  unfold copyoutPage UserMem.copyoutLoop
  rw [if_neg hlen]
  dsimp only
  have hmoff := Nat.mod_lt dstva (show 0 < PGSIZE by decide)
  have hdrop : (src.drop (min (PGSIZE - dstva%PGSIZE) src.length)).length =
      src.length - min (PGSIZE - dstva%PGSIZE) src.length := List.length_drop
  set v := dstva/PGSIZE with hv
  have hvV : v < VPAGES := page_lt_iff.mpr hva
  have hmaps1 : Maps s1 pt f1 F (pagesOf f1 0 n ++ U) := by
    by_cases hv : v < n
    · exact (hcheck hv).own.maps
    · obtain ⟨rfl, rfl⟩ := hsame hv
      exact h.maps
  have huser : (userMem s f n).user v = true ↔ v < n ∧ (f v).has PTE_U = true := by
    simp [userMem]
  refine (walkaddr_spec (v*PGSIZE) hmaps1).bind ?_
  rintro pa0 s2 ⟨rfl, hpa0⟩
  rw [page_div] at hpa0
  by_cases hu : v < n ∧ (f v).has PTE_U = true
  · -- A page of the user.
    obtain ⟨hvn, hU⟩ := hu
    have hrep := hcheck hvn
    have hacc : v*PGSIZE < MAXVA ∧ (f1 v).has PTE_V = true ∧ (f1 v).has PTE_U = true :=
      ⟨page_lt_MAXVA hvV, (hrep.own.map.user v hvn).v, by rw [hrep.user]; exact hU⟩
    rw [if_pos hacc] at hpa0
    subst hpa0
    rw [if_neg (hrep.own.page_managed hvn).ne_zero, if_pos ⟨hva, huser.mpr ⟨hvn, hU⟩⟩, runs_bind,
      runs_modify]
    obtain ⟨hout, hfr⟩ := hrep.copy hvn (dstva%PGSIZE)
      (src.take (min (PGSIZE - dstva%PGSIZE) src.length))
    refine (hnext _ _ hvn hout.own (by omega)).imp ?_
    rintro r s' ⟨hr, ⟨f', hf', hthr⟩, hfr'⟩
    rw [hout.mem] at hr hf'
    rw [hdrop] at hthr hfr'
    have hfree := hrep.free
    have hmet : pagesMet dstva src.length = pagesMet ((v+1)*PGSIZE)
        (src.length - min (PGSIZE - dstva%PGSIZE) src.length) + 1 := pagesMet_step hlen
    have hneq : cowNeed f U n v (pagesMet dstva src.length) =
        (if PTE2PA (f v) ∈ U then 1 else 0) + cowNeed f1 U n (v+1) (pagesMet ((v+1)*PGSIZE)
          (src.length - min (PGSIZE - dstva%PGSIZE) src.length)) := by
      rw [hmet, cowNeed, if_pos ⟨hvn, hU⟩,
        cowNeed_congr (f := f) (g := f1) fun k hk => hrep.other k (by omega)]
    rw [page_div] at hfr'
    obtain ⟨hbef, hsh⟩ := hthr
    rw [page_div] at hbef hsh
    refine ⟨hr, ⟨f', ⟨hf'.own, hf'.mem, hout.frame.trans hf'.frame, fun pa hpa hin =>
      hout.pages pa (hf'.pages pa hpa hin) hin⟩, ?_, ?_⟩, fun hneed => ?_⟩
    · intro k hk
      rw [hbef k (by omega), hrep.other k (by omega)]
    · -- Either this page is the one that stays shared, or a later one is.
      intro hlt
      rw [hneq] at hlt
      by_cases hst : PTE2PA (f v) ∈ U ∧ s.freelist = []
      · refine ⟨v, le_rfl, by omega, ?_, hst.1, ?_⟩
        · intro i h1 h2
          obtain rfl : i = v := by omega
          exact ⟨hvn, hU⟩
        · rw [hbef v (by omega)]
          exact hrep.stay hst.1 hst.2
      · have hlt' : s2.freelist.length < cowNeed f1 U n (v+1) (pagesMet ((v+1)*PGSIZE)
            (src.length - min (PGSIZE - dstva%PGSIZE) src.length)) := by
          have hpos : PTE2PA (f v) ∈ U → 0 < s.freelist.length := fun hin =>
            List.length_pos_iff.mpr fun he => hst ⟨hin, he⟩
          split_ifs at hlt hfree with hin
          · have := hpos hin
            omega
          · omega
        obtain ⟨w, hw1, hw2, hw3, hw4, hw5⟩ := hsh hlt'
        have hfw : f1 w = f w := hrep.other w (by omega)
        rw [hfw] at hw4 hw5
        refine ⟨w, by omega, by omega, ?_, hw4, hw5⟩
        intro i h1 h2
        rcases Nat.eq_or_lt_of_le h1 with rfl | hlt
        · exact ⟨hvn, hU⟩
        · rw [← hrep.other i (by omega)]
          exact hw3 i hlt h2
    · rw [← hv, hneq] at hneed
      refine (hfr (by omega)).trans (hfr' ?_)
      rw [setPage_freelist]
      omega
  · -- The page is not the user's: nothing is written.
    have hno : ¬ (v*PGSIZE < MAXVA ∧ (f1 v).has PTE_V = true ∧ (f1 v).has PTE_U = true) := by
      rintro ⟨-, -, hU⟩
      by_cases hvn : v < n
      · exact hu ⟨hvn, by rw [← (hcheck hvn).user]; exact hU⟩
      · obtain ⟨rfl, rfl⟩ := hsame hvn
        rw [(h.map.above (by omega) (show v < 2*VPAGES by omega)).1] at hU
        exact absurd hU (by decide)
    rw [if_neg hno] at hpa0
    rw [if_pos hpa0, runs_pure, if_neg fun hc => hu (huser.mp hc.2)]
    have hz : cowNeed f U n v (pagesMet dstva src.length) = 0 := by
      rw [pagesMet_step hlen, cowNeed, if_neg hu]
    by_cases hvn : v < n
    · have hrep := hcheck hvn
      exact ⟨rfl, ⟨f1, ⟨hrep.own, hrep.mem, fun q hq => hrep.frame q
        (hq.mono (List.Subset.refl _) (List.nil_subset _)), hrep.pages⟩,
        fun k hk => hrep.other k (by omega), fun hlt => absurd hlt (by rw [← hv, hz]; omega)⟩,
        fun _ => hrep.frame⟩
    · obtain ⟨rfl, rfl⟩ := hsame hvn
      exact h.copyout_done (-1) hz

/-- The loop of `copyout` does to the memory of the process what a copy into
private memory does. -/
theorem copyoutLoop_own_spec (hn : n = npages sz) (k : Nat) :
    ∀ (s : Phys) (f : Nat → Pte) (dstva : Nat) (src : List UInt8), Own s pt f F U n tf →
    (src ≠ [] → dstva < MAXVA) → src.length ≤ k →
    Runs (copyoutLoop pt sz pt k dstva src) s
      (CopyoutPost s pt f F U n tf dstva src.length
        ((userMem s f n).copyoutLoop k dstva src)) := by
  have hnone {f : Nat → Pte} {dstva len : Nat} (hz : len = 0) :
      cowNeed f U n (dstva/PGSIZE) (pagesMet dstva len) = 0 := by
    unfold pagesMet
    rw [if_pos hz]
    rfl
  induction k with
  | zero =>
    intro s f dstva src h _ hk
    exact (runs_pure _).mpr (h.copyout_done 0 (hnone (by omega)))
  | succ k ih =>
    intro s f dstva src h hmax hk
    by_cases hz : src.length = 0
    · unfold copyoutLoop UserMem.copyoutLoop
      rw [if_pos hz, if_pos hz]
      exact (runs_pure _).mpr (h.copyout_done 0 (hnone hz))
    have hva : dstva < MAXVA := hmax (by intro he; simp [he] at hz)
    -- The rest of the loop starts at the next page, below the trampoline.
    have hrec (f1 : Nat → Pte) (t : Phys) (src' : List UInt8) (hv : dstva/PGSIZE < n)
        (ht : Own t pt f1 F U n tf) (hk' : src'.length ≤ k) :=
      ih t f1 ((dstva/PGSIZE+1)*PGSIZE) src' ht (fun _ => by
        have hs := h.map.size
        have hT : TFPAGE < VPAGES := by decide
        exact page_lt_MAXVA (by omega)) hk'
    rw [copyoutLoop_succ hva hz]
    refine (h.cow_check hva hn).bind ?_
    rintro cow s1 ⟨rfl, hcow, hnocow⟩
    rw [runs_ite, runs_bind]
    constructor
    · intro hc
      have hv := (hcow hc).1
      refine (h.copy_on_write hv).imp ?_
      rintro _ s2 ⟨⟨f1, hrep⟩, -⟩
      exact copyout_round h hva hz (fun _ => hrep) (fun hn => absurd hv hn) (hrec f1) hk
    · intro hc
      have hc' : cow = false := by simpa using hc
      exact copyout_round h hva hz (fun hv => h.repaired_refl hv (hnocow hc' hv))
        (fun _ => ⟨rfl, rfl⟩) (hrec f) hk

theorem copyout_own_spec {s : Phys} {f : Nat → Pte} {dstva : Nat} {src : List UInt8}
    (hn : n = npages sz) (h : Own s pt f F U n tf) (hmax : src ≠ [] → dstva < MAXVA) :
    Runs (copyout pt sz pt dstva src) s
      (CopyoutPost s pt f F U n tf dstva src.length ((userMem s f n).copyout dstva src)) :=
  copyoutLoop_own_spec hn src.length s f dstva src h hmax le_rfl

end Loop

end Xv6
