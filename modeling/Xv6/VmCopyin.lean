import Xv6.UserGrow

/-! `copyin` and `copyinstr` against loads of single bytes, for any page table and any
addresses: both loops go page by page, and copy what a user would load one byte at a
time. On the page table of a process they read what the process itself sees. -/
namespace Xv6

open Function

def IsString (l : List UInt8) : Prop := ∃ t, l = t ++ [0] ∧ 0 ∉ t

theorem takeString_length (p : Nat → UInt8) (n : Nat) : (takeString p n).1.length ≤ n := by
  induction n generalizing p with
  | zero => exact le_rfl
  | succ n ih =>
    unfold takeString
    split_ifs
    · exact Nat.succ_le_succ (Nat.zero_le n)
    · exact Nat.succ_le_succ (ih _)

theorem takeString_of_string {p : Nat → UInt8} {n : Nat} {t : List UInt8} (ht : 0 ∉ t) (hlen : t.length + 1 ≤ n)
    (hp : ∀ i, i ≤ t.length → p i = (t ++ [0]).getD i 0) : takeString p n = (t ++ [0], true) := by
  induction t generalizing p n with
  | nil =>
    obtain ⟨n, rfl⟩ : ∃ m, n = m+1 := ⟨n-1, by simp at hlen; omega⟩
    unfold takeString
    rw [if_pos (by simpa using hp 0 le_rfl)]
    rfl
  | cons x t ih =>
    obtain ⟨n, rfl⟩ : ∃ m, n = m+1 := ⟨n-1, by simp at hlen; omega⟩
    have hx : p 0 = x := by simpa using hp 0 (Nat.zero_le _)
    have hne : ¬ p 0 = 0 := by
      rw [hx]
      rintro rfl
      simp at ht
    have htail := ih (p := fun i => p (i+1)) (n := n) (fun hin => ht (List.mem_cons_of_mem _ hin))
      (by simpa using hlen) fun i hi => by simpa using hp (i+1) (by simpa using hi)
    unfold takeString
    rw [if_neg hne, htail, hx]
    rfl

section Bytewise

/-- Loading `n` bytes one at a time, up to the first that cannot be loaded. -/
def fetch (load : Nat → Option UInt8) : Nat → Int × List UInt8
  | 0 => (0, [])
  | n+1 =>
    match load 0 with
    | none => (-1, [])
    | some b =>
      let r := fetch (fun i => load (i+1)) n
      (r.1, b :: r.2)

/-- Loading bytes one at a time up to a NUL, `n` at most. -/
def fetchString (load : Nat → Option UInt8) : Nat → Int × List UInt8
  | 0 => (-1, [])
  | n+1 =>
    match load 0 with
    | none => (-1, [])
    | some b =>
      if b = 0 then (0, [0]) else
      let r := fetchString (fun i => load (i+1)) n
      (r.1, b :: r.2)

variable {load : Nat → Option UInt8}

theorem fetch_none {n : Nat} (hn : n ≠ 0) (h : load 0 = none) : fetch load n = (-1, []) := by
  obtain ⟨m, rfl⟩ : ∃ m, n = m+1 := ⟨n-1, by omega⟩
  rw [fetch, h]

theorem fetchString_none {n : Nat} (h : load 0 = none) : fetchString load n = (-1, []) := by
  cases n with
  | zero => rfl
  | succ n => rw [fetchString, h]

theorem fetch_add {p : Nat → UInt8} (n k : Nat) (h : ∀ i < n, load i = some (p i)) :
    fetch load (n+k) = ((fetch (fun i => load (n+i)) k).1,
      (List.range n).map p ++ (fetch (fun i => load (n+i)) k).2) := by
  induction n generalizing load p with
  | zero => simp
  | succ n ih =>
    have hshift : (fun i => load (n+i+1)) = fun i => load (n+1+i) := by
      funext i
      rw [Nat.add_right_comm]
    have htail := @ih (fun i => load (i+1)) (fun i => p (i+1)) fun i hi => h (i+1) (by omega)
    rw [Nat.add_right_comm, fetch, h 0 (by omega)]
    dsimp only
    rw [htail, hshift, List.range_succ_eq_map, List.map_cons, List.map_map]
    rfl

/-- A chunk that is there holds the rest of the string, or all of it belongs to the string. -/
theorem fetchString_add {p : Nat → UInt8} (n k : Nat) (h : ∀ i < n, load i = some (p i)) :
    fetchString load (n+k) = if (takeString p n).2 = true then (0, (takeString p n).1) else
      ((fetchString (fun i => load (n+i)) k).1,
        (takeString p n).1 ++ (fetchString (fun i => load (n+i)) k).2) := by
  induction n generalizing load p with
  | zero => simp [takeString]
  | succ n ih =>
    have hshift : (fun i => load (n+i+1)) = fun i => load (n+1+i) := by
      funext i
      rw [Nat.add_right_comm]
    have htail := @ih (fun i => load (i+1)) (fun i => p (i+1)) fun i hi => h (i+1) (by omega)
    rw [Nat.add_right_comm, fetchString, h 0 (by omega), takeString]
    dsimp only
    by_cases hz : p 0 = 0
    · rw [if_pos hz, if_pos hz, if_pos rfl]
    · rw [if_neg hz, if_neg hz, htail, hshift]
      dsimp only
      split_ifs <;> rfl

theorem fetch_bytes (load : Nat → Option UInt8) (n : Nat) :
    (fetch load n).2.length ≤ n ∧ (∀ i < (fetch load n).2.length, load i = (fetch load n).2[i]?) ∧
      ((fetch load n).1 = 0 ∧ (fetch load n).2.length = n ∧ (∀ i < n, load i ≠ none) ∨
        (fetch load n).1 = -1 ∧ ∃ i < n, load i = none) := by
  induction n generalizing load with
  | zero => simp [fetch]
  | succ n ih =>
    cases h0 : load 0 with
    | none =>
      rw [fetch_none (Nat.succ_ne_zero n) h0]
      exact ⟨Nat.zero_le _, fun i hi => absurd hi (Nat.not_lt_zero i), Or.inr ⟨rfl, 0, Nat.succ_pos n, h0⟩⟩
    | some b =>
      obtain ⟨hlen, hbytes, hcode⟩ := ih fun i => load (i+1)
      rw [fetch, h0]
      refine ⟨Nat.succ_le_succ hlen, ?_, ?_⟩
      · intro i hi
        cases i with
        | zero => exact h0
        | succ i => exact hbytes i (Nat.lt_of_succ_lt_succ hi)
      · rcases hcode with ⟨hr, hl, hall⟩ | ⟨hr, i, hi, hnone⟩
        · refine Or.inl ⟨hr, congrArg (· + 1) hl, ?_⟩
          intro i hi
          cases i with
          | zero => simp [h0]
          | succ i => exact hall i (by omega)
        · exact Or.inr ⟨hr, i+1, by omega, hnone⟩

/-- A NUL is found among the loads before one that is missing. -/
def NulWithin (load : Nat → Option UInt8) (n : Nat) : Prop :=
  ∃ k < n, load k = some 0 ∧ ∀ i < k, load i ≠ none

theorem nulWithin_succ {n : Nat} {b : UInt8} (h0 : load 0 = some b) (hb : b ≠ 0) :
    NulWithin load (n+1) ↔ NulWithin (fun i => load (i+1)) n := by
  constructor
  · intro h
    obtain ⟨k, hk, hnul, hall⟩ := h
    cases k with
    | zero =>
      rw [h0] at hnul
      exact absurd (Option.some.inj hnul) hb
    | succ k => exact ⟨k, by omega, hnul, fun i hi => hall (i+1) (by omega)⟩
  · intro h
    obtain ⟨k, hk, hnul, hall⟩ := h
    refine ⟨k+1, by omega, hnul, ?_⟩
    intro i hi
    cases i with
    | zero => simp [h0]
    | succ i => exact hall i (by omega)

theorem not_nulWithin {n : Nat} (h0 : load 0 = none) : ¬ NulWithin load n := by
  intro hnul
  obtain ⟨k, _, hk, hall⟩ := hnul
  cases k with
  | zero => simp [h0] at hk
  | succ k => exact hall 0 (Nat.succ_pos k) h0

theorem fetchString_bytes (load : Nat → Option UInt8) (n : Nat) :
    (fetchString load n).2.length ≤ n ∧
      (∀ i < (fetchString load n).2.length, load i = (fetchString load n).2[i]?) ∧
      ((fetchString load n).1 = 0 ∧ IsString (fetchString load n).2 ∧ NulWithin load n ∨
        (fetchString load n).1 = -1 ∧ ¬ NulWithin load n) := by
  induction n generalizing load with
  | zero => simp [fetchString, NulWithin]
  | succ n ih =>
    cases h0 : load 0 with
    | none =>
      rw [fetchString_none h0]
      exact ⟨Nat.zero_le _, fun i hi => absurd hi (Nat.not_lt_zero i), Or.inr ⟨rfl, not_nulWithin h0⟩⟩
    | some b =>
      rw [fetchString, h0]
      dsimp only
      by_cases hb : b = 0
      · have hnul : NulWithin load (n+1) :=
          ⟨0, Nat.succ_pos n, by rw [h0, hb], fun i hi => absurd hi (Nat.not_lt_zero i)⟩
        rw [if_pos hb]
        refine ⟨Nat.succ_le_succ (Nat.zero_le n), ?_, Or.inl ⟨rfl, ⟨[], rfl, List.not_mem_nil⟩, hnul⟩⟩
        intro i hi
        obtain rfl : i = 0 := Nat.lt_one_iff.mp hi
        rw [h0, hb]
        rfl
      · obtain ⟨hlen, hbytes, hcode⟩ := ih fun i => load (i+1)
        rw [if_neg hb, nulWithin_succ h0 hb]
        refine ⟨Nat.succ_le_succ hlen, ?_, ?_⟩
        · intro i hi
          cases i with
          | zero => exact h0
          | succ i => exact hbytes i (Nat.lt_of_succ_lt_succ hi)
        · rcases hcode with ⟨hr, ⟨t, ht, hnt⟩, hnul⟩ | hfail
          · refine Or.inl ⟨hr, ⟨b :: t, congrArg (b :: ·) ht, ?_⟩, hnul⟩
            rw [List.mem_cons, not_or]
            exact ⟨Ne.symm hb, hnt⟩
          · exact Or.inr hfail

end Bytewise

/-- What the user loads from `va`. `walkaddr` returns 0 for "not mapped", so a page at the
physical address 0 does not count. -/
def loadByte (m : Nat → Bytes) (pt va : Nat) : Option UInt8 :=
  ((userPage m pt va).filter (· ≠ 0)).map fun pa => m pa (va % PGSIZE)

def loadFrom (m : Nat → Bytes) (pt va i : Nat) : Option UInt8 := loadByte m pt ((va+i) % 2^64)

/-- `load` gives what the user loads from the addresses below `B`. -/
structure Loads (s : Phys) (pt B : Nat) (load : Nat → Option UInt8) : Prop where
  bound : MAXVA + PGSIZE ≤ B
  load : ∀ va < B, load va = loadByte s.mem pt va

section Pages
variable {m : Nat → Bytes} {s : Phys} {pt va B : Nat} {load : Nat → Option UInt8}

theorem loadByte_chunk {pa i : Nat} (hpa : userPage m pt va = some pa) (h0 : pa ≠ 0)
    (hi : i < PGSIZE - va%PGSIZE) : loadByte m pt (va+i) = some (m pa (va%PGSIZE + i)) := by
  have hdm := Nat.div_add_mod' va PGSIZE
  have hsum : va+i = va%PGSIZE + i + va/PGSIZE*PGSIZE := by omega
  have hdiv : (va+i)/PGSIZE = va/PGSIZE := by
    rw [hsum, Nat.add_mul_div_right _ _ (by decide), Nat.div_eq_of_lt (by omega), Nat.zero_add]
  have hoff : (va+i)%PGSIZE = va%PGSIZE + i := by
    rw [hsum, Nat.add_mul_mod_self_right, Nat.mod_eq_of_lt (by omega)]
  unfold loadByte
  rw [userPage_of_same_page hdiv, hpa, hoff]
  simp [h0]

/-- What a round of the loops finds: no byte at `va`, or the bytes up to the end of the page. -/
theorem Loads.walkaddr (h : Loads s pt B load) (hva : va < B) :
    Runs (walkaddr pt (PGROUNDDOWN va)) s fun pa s' => s' = s ∧
      if pa = 0 then load va = none else va < MAXVA ∧
        ∀ i < PGSIZE - va%PGSIZE, load (va+i) = some (s.mem pa (va%PGSIZE + i)) := by
  apply (walkaddr_userPage s pt (PGROUNDDOWN va)).imp
  intro pa s' hpa
  obtain ⟨rfl, hpa⟩ := hpa
  rw [userPage_of_same_page (show PGROUNDDOWN va / PGSIZE = va/PGSIZE from page_div _)] at hpa
  refine ⟨rfl, ?_⟩
  by_cases h0 : pa = 0
  · rw [if_pos h0, h.load va hva, loadByte]
    cases hu : userPage s'.mem pt va with
    | none => rfl
    | some q =>
      rw [hu, h0] at hpa
      rw [← show 0 = q from hpa]
      rfl
  · rw [if_neg h0]
    cases hu : userPage s'.mem pt va with
    | none =>
      rw [hu] at hpa
      exact absurd hpa h0
    | some q =>
      rw [hu] at hpa
      obtain rfl : pa = q := hpa
      have hlt := userPage_lt hu
      refine ⟨hlt, fun i hi => ?_⟩
      rw [h.load _ (by have := h.bound; omega), loadByte_chunk hu h0 hi]

/-- Where a round of the loops leaves the address: behind the chunk, unless that was the
last one. -/
theorem next_chunk {n len : Nat} (va : Nat) (hn : n = min (PGSIZE - va%PGSIZE) len) :
    len - n = 0 ∨ (va/PGSIZE+1)*PGSIZE = va+n := by
  by_cases hmore : n < len
  · exact Or.inr (page_after hn hmore)
  · exact Or.inl (by omega)

theorem Loads.next_lt (h : Loads s pt B load) (hva : va < MAXVA) : (va/PGSIZE+1)*PGSIZE < B := by
  have h1 := page_lt_MAXVA (page_lt_iff.mpr hva)
  have h2 := h.bound
  rw [Nat.succ_mul]
  omega

theorem Loads.copyinLoop (h : Loads s pt B load) (k : Nat) : ∀ (va len : Nat) (dst : List UInt8),
    len ≤ k → va < B →
    Runs (copyinLoop pt k va len dst) s fun r s' => s' = s ∧
      r = ((fetch (fun i => load (va+i)) len).1, dst ++ (fetch (fun i => load (va+i)) len).2) := by
  -- Induction on the rounds. Each copies a chunk, and `fetch_add` takes the same bytes off `fetch`.
  induction k with
  | zero =>
    intro va len dst hlen _
    obtain rfl : len = 0 := by omega
    rw [Xv6.copyinLoop, runs_pure, fetch, List.append_nil]
    exact ⟨rfl, rfl⟩
  | succ k ih =>
    intro va len dst hlen hva
    unfold Xv6.copyinLoop
    by_cases hz : len = 0
    · rw [if_pos hz, runs_pure, hz, fetch, List.append_nil]
      exact ⟨rfl, rfl⟩
    rw [if_neg hz]
    dsimp only
    rw [runs_bind, page_offset]
    apply (h.walkaddr hva).imp
    intro pa s' hpa
    obtain ⟨rfl, hpa⟩ := hpa
    by_cases h0 : pa = 0
    · rw [if_pos h0] at hpa
      rw [if_pos h0, runs_pure, fetch_none hz hpa, List.append_nil]
      exact ⟨rfl, rfl⟩
    rw [if_neg h0] at hpa
    rw [if_neg h0, runs_bind, runs_get, page_next hpa.1]
    set n := min (PGSIZE - va%PGSIZE) len with hn
    have hpos : va%PGSIZE < PGSIZE := Nat.mod_lt _ (by decide)
    apply (ih _ (len-n) _ (by omega) (h.next_lt hpa.1)).imp
    intro r s'' hr
    obtain ⟨rfl, rfl⟩ := hr
    have hsplit := fetch_add n (len-n) fun i hi => hpa.2 i (by omega)
    rw [show n + (len-n) = len by omega] at hsplit
    refine ⟨rfl, ?_⟩
    rw [hsplit, List.append_assoc]
    rcases next_chunk va hn with hdone | hnext
    · rw [hdone]
      rfl
    · simp only [hnext, Nat.add_assoc]

theorem Loads.copyinstrLoop (h : Loads s pt B load) (k : Nat) :
    ∀ (va max : Nat) (dst : List UInt8), max ≤ k → va < B →
    Runs (copyinstrLoop pt k va max dst) s fun r s' => s' = s ∧
      r = ((fetchString (fun i => load (va+i)) max).1,
        dst ++ (fetchString (fun i => load (va+i)) max).2) := by
  induction k with
  | zero =>
    intro va max dst hmax _
    obtain rfl : max = 0 := by omega
    rw [Xv6.copyinstrLoop, runs_pure, fetchString, List.append_nil]
    exact ⟨rfl, rfl⟩
  | succ k ih =>
    intro va max dst hmax hva
    unfold Xv6.copyinstrLoop
    by_cases hz : max = 0
    · rw [if_pos hz, runs_pure, hz, fetchString, List.append_nil]
      exact ⟨rfl, rfl⟩
    rw [if_neg hz]
    dsimp only
    rw [runs_bind, page_offset]
    apply (h.walkaddr hva).imp
    intro pa s' hpa
    obtain ⟨rfl, hpa⟩ := hpa
    by_cases h0 : pa = 0
    · rw [if_pos h0] at hpa
      rw [if_pos h0, runs_pure, fetchString_none hpa, List.append_nil]
      exact ⟨rfl, rfl⟩
    rw [if_neg h0] at hpa
    rw [if_neg h0, runs_bind, runs_get, page_next hpa.1, runs_ite]
    set n := min (PGSIZE - va%PGSIZE) max with hn
    have hpos : va%PGSIZE < PGSIZE := Nat.mod_lt _ (by decide)
    have hsplit := fetchString_add n (max-n) fun i hi => hpa.2 i (by omega)
    rw [show n + (max-n) = max by omega] at hsplit
    rw [hsplit]
    constructor
    · intro hnul
      rw [if_pos hnul, runs_pure]
      exact ⟨rfl, rfl⟩
    · intro hnul
      rw [if_neg hnul]
      apply (ih _ (max-n) _ (by omega) (h.next_lt hpa.1)).imp
      intro r s'' hr
      obtain ⟨rfl, rfl⟩ := hr
      refine ⟨rfl, ?_⟩
      rw [List.append_assoc]
      rcases next_chunk va hn with hdone | hnext
      · rw [hdone]
        rfl
      · simp only [hnext, Nat.add_assoc]

theorem Loads.copyin (h : Loads s pt B load) (hva : va < B) (len : Nat) :
    Xv6.copyin pt va len s = .ok (fetch (fun i => load (va+i)) len, s) := by
  obtain ⟨r, s', hrun, rfl, rfl⟩ := h.copyinLoop len va len [] le_rfl hva
  exact hrun

theorem Loads.copyinstr (h : Loads s pt B load) (hva : va < B) (max : Nat) :
    Xv6.copyinstr pt va max s = .ok (fetchString (fun i => load (va+i)) max, s) := by
  obtain ⟨r, s', hrun, rfl, rfl⟩ := h.copyinstrLoop max va max [] le_rfl hva
  exact hrun

/-- User addresses wrap around. -/
theorem loads_wrapped (s : Phys) (pt : Nat) : Loads s pt (2^64) fun va => loadByte s.mem pt (va % 2^64) :=
  ⟨by decide, fun va hva => by rw [Nat.mod_eq_of_lt hva]⟩

theorem copyin_fetch (s : Phys) (pt : Nat) {va : Nat} (hva : va < 2^64) (len : Nat) :
    copyin pt va len s = .ok (fetch (loadFrom s.mem pt va) len, s) :=
  (loads_wrapped s pt).copyin hva len

theorem copyinstr_fetch (s : Phys) (pt : Nat) {va : Nat} (hva : va < 2^64) (max : Nat) :
    copyinstr pt va max s = .ok (fetchString (loadFrom s.mem pt va) max, s) :=
  (loads_wrapped s pt).copyinstr hva max

end Pages

/-- Two memories that show the user the same: the same pages are mapped for the user, and
they hold the same bytes. -/
structure SameUser (pt : Nat) (m m' : Nat → Bytes) : Prop where
  page : ∀ va, userPage m' pt va = userPage m pt va
  byte : ∀ va pa, userPage m pt va = some pa → m' pa (va%PGSIZE) = m pa (va%PGSIZE)

theorem SameUser.loadFrom {pt : Nat} {m m' : Nat → Bytes} (h : SameUser pt m m') (va : Nat) :
    loadFrom m' pt va = loadFrom m pt va := by
  funext i
  unfold Xv6.loadFrom loadByte
  rw [h.page]
  cases hpa : userPage m pt ((va+i) % 2^64) with
  | none => rfl
  | some pa =>
    rw [Option.filter_some]
    split_ifs
    · rw [Option.map_some, Option.map_some, h.byte _ pa hpa]
    · rfl

/-- `copyin` and `copyinstr` read what single loads of the user read. `copyin` returns 0 with
all the bytes if each of them is mapped for the user at a physical page other than 0, and
-1 otherwise. `copyinstr` returns 0 with the string exactly if a NUL comes before the first
byte that is not mapped, within `max` bytes. Nothing is written behind the bytes that were
asked for, and what is not mapped for the user has no influence. -/
theorem copyin_copyinstr_bytewise (s : Phys) (pt : Nat) (srcva len max : BitVec 64) :
    (∃ r dst, copyin pt srcva.toNat len.toNat s = .ok ((r, dst), s) ∧
      dst.length ≤ len.toNat ∧ (∀ i < dst.length, loadFrom s.mem pt srcva.toNat i = dst[i]?) ∧
      (r = 0 ∧ dst.length = len.toNat ∧
          (∀ i < len.toNat, loadFrom s.mem pt srcva.toNat i ≠ none) ∨
        r = -1 ∧ ∃ i < len.toNat, loadFrom s.mem pt srcva.toNat i = none)) ∧
    (∃ r dst, copyinstr pt srcva.toNat max.toNat s = .ok ((r, dst), s) ∧
      dst.length ≤ max.toNat ∧ (∀ i < dst.length, loadFrom s.mem pt srcva.toNat i = dst[i]?) ∧
      (r = 0 ∧ IsString dst ∧ NulWithin (loadFrom s.mem pt srcva.toNat) max.toNat ∨
        r = -1 ∧ ¬ NulWithin (loadFrom s.mem pt srcva.toNat) max.toNat)) ∧
    ∀ s' : Phys, SameUser pt s.mem s'.mem →
      (copyin pt srcva.toNat len.toNat s').map Prod.fst =
        (copyin pt srcva.toNat len.toNat s).map Prod.fst ∧
      (copyinstr pt srcva.toNat max.toNat s').map Prod.fst =
        (copyinstr pt srcva.toNat max.toNat s).map Prod.fst := by
  have hva := srcva.isLt
  refine ⟨⟨_, _, copyin_fetch s pt hva _, fetch_bytes _ _⟩,
    ⟨_, _, copyinstr_fetch s pt hva _, fetchString_bytes _ _⟩, ?_⟩
  intro s' hsame
  rw [copyin_fetch s pt hva, copyin_fetch s' pt hva, copyinstr_fetch s pt hva,
    copyinstr_fetch s' pt hva, hsame.loadFrom]
  exact ⟨rfl, rfl⟩

/-- Tables at 4096, 8192 and 12288 that map the first page of the user to physical page 0. -/
def pageZeroTable : Nat → Bytes :=
  update (update (update (fun _ _ => 0)
    4096 (leSet 8 (fun _ => 0) 0 (PA2PTE 8192 ||| PTE_V).toNat))
    8192 (leSet 8 (fun _ => 0) 0 (PA2PTE 12288 ||| PTE_V).toNat))
    12288 (leSet 8 (fun _ => 0) 0 (PA2PTE 0 ||| PTE_V ||| PTE_U).toNat)

/-- A page of the user at the physical address 0 is taken for a page that is not mapped. -/
theorem copyin_refuses_page_zero :
    userPage pageZeroTable 4096 0 = some 0 ∧
      (copyin 4096 0 1 ⟨pageZeroTable, [], fun _ => 0⟩).map Prod.fst = .ok (-1, []) := by
  constructor
  · decide +kernel
  · rw [copyin_fetch _ _ (by decide)]
    decide +kernel

/-- What a process with the memory `m` loads from `va`. -/
def UserMem.loadByte (m : UserMem) (va : Nat) : Option UInt8 :=
  if m.userByte va then some (m.byte va) else none

def UserMem.copyin (m : UserMem) (srcva len : Nat) : Int × List UInt8 :=
  fetch (fun i => m.loadByte (srcva+i)) len

def UserMem.copyinstr (m : UserMem) (srcva max : Nat) : Int × List UInt8 :=
  fetchString (fun i => m.loadByte (srcva+i)) max

section Bytes

def UserMem.bytes (m : UserMem) (va n : Nat) : List UInt8 :=
  (List.range n).map fun x => m.page ((va+x)/PGSIZE) ((va+x)%PGSIZE)

theorem UserMem.bytes_add (m : UserMem) (va k n : Nat) :
    m.bytes va (k+n) = m.bytes va k ++ m.bytes (va+k) n := by
  unfold UserMem.bytes
  rw [List.range_add, List.map_append, List.map_map]
  congr 1
  apply List.map_congr_left
  intro x _
  simp only [Function.comp_apply, Nat.add_assoc]

/-- `copyin` reads the bytes up to the first one that the process has no page for. -/
theorem copyin_upto (m : UserMem) (va len : Nat) : ∃ u, m.Upto va len u ∧
    m.copyin va len = (if u = len then 0 else -1, m.bytes va u) := by
  obtain ⟨u, hu⟩ := exists_upto m va len
  refine ⟨u, hu, ?_⟩
  have hsplit := @fetch_add (fun i => m.loadByte (va+i)) (fun i => m.byte (va+i)) u (len-u)
    fun i hi => if_pos (hu.user i hi)
  rw [Nat.add_sub_cancel' hu.le] at hsplit
  rw [UserMem.copyin, hsplit]
  by_cases hall : u = len
  · rw [if_pos hall, hall, Nat.sub_self, fetch, List.append_nil]
    rfl
  · have hlt : u < len := Nat.lt_of_le_of_ne hu.le hall
    rw [if_neg hall, fetch_none (by omega) (if_neg (hu.stop hlt)), List.append_nil]
    rfl

theorem copyin_mapped {m : UserMem} {va len : Nat} (h : ∀ x, x < len → m.userByte (va+x)) :
    m.copyin va len = (0, m.bytes va len) := by
  obtain ⟨u, hu, hrun⟩ := copyin_upto m va len
  rw [hu.all_iff.mpr h, if_pos rfl] at hrun
  exact hrun

/-- A copy that does not fail has read from pages of the process only. -/
theorem copyin_userByte {m : UserMem} {va len : Nat} (h : (m.copyin va len).1 ≠ -1) :
    ∀ x, x < len → m.userByte (va+x) := by
  obtain ⟨u, hu, hrun⟩ := copyin_upto m va len
  apply hu.all_iff.mp
  by_contra hne
  rw [hrun, if_neg hne] at h
  exact h rfl

/-- `copyinstr` leaves a string of at most `max` bytes when it succeeds. -/
theorem copyinstr_string {m : UserMem} {va max : Nat} (h : ¬ (m.copyinstr va max).1 < 0) :
    IsString (m.copyinstr va max).2 ∧ (m.copyinstr va max).2.length ≤ max := by
  obtain ⟨hlen, _, ⟨_, hstr, _⟩ | ⟨hfail, _⟩⟩ := fetchString_bytes (fun i => m.loadByte (va+i)) max
  · exact ⟨hstr, hlen⟩
  · rw [UserMem.copyinstr, hfail] at h
    exact absurd (by decide) h

end Bytes

section Read
variable [Layout] {s : Phys} {pt n tf : Nat} {f : Nat → Pte} {F U : List Nat}

omit [Layout] in
theorem userMem_user {v : Nat} (h : (userMem s f n).user v = true) : v < n := by
  simp only [userMem, Bool.and_eq_true, decide_eq_true_eq] at h
  exact h.1

theorem Own.userPage (h : Own s pt f F U n tf) (va : Nat) : userPage s.mem pt va =
    if (userMem s f n).userByte va then some (PTE2PA (f (va/PGSIZE))) else none := by
  rw [h.maps.userPage]
  refine if_congr ?_ rfl rfl
  simp only [UserMem.userByte, userMem, Bool.and_eq_true, decide_eq_true_eq]
  refine and_congr_right fun hva => ⟨fun hc => ⟨?_, hc.2⟩, fun hc => ⟨(h.map.user _ hc.1).v, hc.2⟩⟩
  by_contra hvn
  have hv := page_lt_iff.mpr hva
  rw [(h.map.above (by omega) (by omega)).1] at hc
  exact absurd hc.2 (by decide)

/-- `walkaddr` finds the pages that the process may use, and no others. -/
theorem Own.walkaddr (h : Own s pt f F U n tf) (va : Nat) :
    Runs (walkaddr pt (PGROUNDDOWN va)) s fun pa s' => s' = s ∧
      if va < MAXVA ∧ (userMem s f n).user (va/PGSIZE) = true then
        va/PGSIZE < n ∧ pa = PTE2PA (f (va/PGSIZE)) ∧ pa ≠ 0
      else pa = 0 := by
  apply (walkaddr_userPage s pt (PGROUNDDOWN va)).imp
  intro pa s' ⟨hs, hpa⟩
  rw [userPage_of_same_page (show PGROUNDDOWN va / PGSIZE = va/PGSIZE from page_div _),
    h.userPage] at hpa
  refine ⟨hs, ?_⟩
  by_cases hu : (userMem s f n).userByte va
  · have hvn := userMem_user hu.2
    rw [if_pos hu] at hpa
    rw [if_pos (show _ ∧ _ from hu), hpa]
    exact ⟨hvn, rfl, (h.page_managed hvn).ne_zero⟩
  · rw [if_neg hu] at hpa
    rw [if_neg (show ¬ (_ ∧ _) from hu), hpa]
    rfl

theorem Own.loadByte (h : Own s pt f F U n tf) (va : Nat) :
    loadByte s.mem pt va = (userMem s f n).loadByte va := by
  unfold Xv6.loadByte UserMem.loadByte
  rw [h.userPage]
  by_cases hu : (userMem s f n).userByte va
  · have hvn := userMem_user hu.2
    rw [if_pos hu, if_pos hu, UserMem.byte, userMem]
    simp [hvn, (h.page_managed hvn).ne_zero]
  · rw [if_neg hu, if_neg hu]
    rfl

theorem Own.loads (h : Own s pt f F U n tf) (B : Nat) :
    Loads s pt (MAXVA + PGSIZE + B) (userMem s f n).loadByte :=
  ⟨Nat.le_add_right _ _, fun va _ => (h.loadByte va).symm⟩

theorem copyin_spec (h : Own s pt f F U n tf) (srcva len : Nat) :
    Runs (copyin pt srcva len) s fun r s' => s' = s ∧ r = (userMem s f n).copyin srcva len :=
  ⟨_, _, (h.loads (srcva+1)).copyin (by omega) len, rfl, rfl⟩

theorem copyinstr_spec (h : Own s pt f F U n tf) (srcva max : Nat) :
    Runs (copyinstr pt srcva max) s fun r s' => s' = s ∧
      r = (userMem s f n).copyinstr srcva max :=
  ⟨_, _, (h.loads (srcva+1)).copyinstr (by omega) max, rfl, rfl⟩

end Read

end Xv6
