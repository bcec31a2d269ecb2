import Xv6.Virtio
import Xv6.LinkedRing
import Mathlib.Data.List.Nodup

/-! The requests of the disk driver stay apart, and each is completed once. -/
namespace Xv6.Virtio

open Function

variable {β : Type}

def Pc.idx : Pc → List Nat
  | .wait i j k => [i, j, k]
  | .out | .alloc _ => []

def State.idx (s : State β) (b : β) : List Nat := (s.pc b).idx

def State.head (s : State β) (b : β) : Nat := (s.idx b).headD 0

/-- What holds of the descriptors `l` of the call for `b`: they are taken and linked into
a chain, and the first one leads back to `b`. -/
structure Held (s : State β) (b : β) (l : List Nat) : Prop where
  nodup : l.Nodup
  taken : ∀ x ∈ l, x < NUM ∧ s.free x = false
  links : ∀ i j k, l = [i, j, k] → (s.desc i).flags &&& VRING_DESC_F_NEXT ≠ 0 ∧
    (s.desc i).next = j ∧ (s.desc j).flags &&& VRING_DESC_F_NEXT ≠ 0 ∧ (s.desc j).next = k ∧
    (s.desc k).flags &&& VRING_DESC_F_NEXT = 0
  info : l ≠ [] → s.info (l.headD 0) = ⟨some b, 0⟩ ∧ s.chain (l.headD 0) = some b

/-- The descriptors of the calls are apart from each other, and all others are free. -/
structure Chains (s : State β) : Prop where
  held : ∀ b, Held s b (s.idx b)
  apart : ∀ b c x, x ∈ s.idx b → x ∈ s.idx c → b = c
  taken : ∀ x, x < NUM → s.free x = false → ∃ b, x ∈ s.idx b

/-- The rings, and how far the driver and the device are in them. -/
structure Rings where
  avail : Nat → Nat
  availIdx : BitVec 16
  seen : BitVec 16
  pending : List Nat
  elems : Nat → Nat
  usedId : BitVec 16
  used_idx : Nat

def State.rings (s : State β) : Rings :=
  ⟨s.avail, s.availIdx, s.seen, s.pending, s.elems, s.usedId, s.used_idx⟩

/-- `A` are the chains that the device has not yet seen, `P` those that it works on, and
`U` those that `virtio_disk_intr` has not yet seen, in the order of the rings. -/
structure Rings.Hold (r : Rings) (A P U : List Nat) : Prop where
  availIdx : r.availIdx = r.seen + BitVec.ofNat 16 A.length
  avail : QueueAt r.avail NUM r.seen.toNat A
  pending : r.pending = P
  used_lt : r.used_idx < NUM
  usedId : r.usedId.toNat % NUM = (r.used_idx + U.length) % NUM
  elems : QueueAt r.elems NUM r.used_idx U

/-- The chains in the rings are those of the buffers `A`, `P` and `U`, which are all that
wait for the device. -/
structure Queues (s : State β) (A P U : List β) : Prop where
  nodup : (A ++ (P ++ U)).Nodup
  mem : ∀ b, b ∈ A ++ (P ++ U) ↔ s.idx b ≠ [] ∧ s.disk b = true
  rings : s.rings.Hold (A.map s.head) (P.map s.head) (U.map s.head)
  completed : s.completed = s.cleared ++ U

section Bound
variable {s : State β} {A P U : List β}

theorem idx_cases (s : State β) (b : β) : s.idx b = [] ∨ ∃ i j k, s.idx b = [i, j, k] := by
  unfold State.idx
  cases s.pc b with
  | wait i j k => exact Or.inr ⟨i, j, k, rfl⟩
  | out => exact Or.inl rfl
  | alloc w => exact Or.inl rfl

theorem Chains.bound (h : Chains s) {l : List β} (hnd : l.Nodup) (hl : ∀ b ∈ l, s.idx b ≠ []) :
    3*l.length ≤ NUM := by
  have hflat : (l.flatMap s.idx).Nodup := by
    rw [List.nodup_flatMap]
    refine ⟨fun b _ => (h.held b).nodup, ?_⟩
    apply hnd.imp
    intro b c hne x hb hc
    exact hne (h.apart b c x hb hc)
  have hsub : l.flatMap s.idx ⊆ List.range NUM := by
    intro x hx
    obtain ⟨b, _, hb⟩ := List.mem_flatMap.mp hx
    exact List.mem_range.mpr ((h.held b).taken x hb).1
  have hlen : (l.flatMap s.idx).length = 3*l.length := by
    rw [List.length_flatMap]
    have hmap : l.map (fun b => (s.idx b).length) = l.map fun _ => 3 := by
      apply List.map_congr_left
      intro b hb
      rcases idx_cases s b with hnil | ⟨i, j, k, hijk⟩
      · exact absurd hnil (hl b hb)
      · rw [hijk]
        rfl
    rw [hmap, List.map_const', List.sum_replicate, smul_eq_mul, Nat.mul_comm]
  calc 3*l.length = (l.flatMap s.idx).length := hlen.symm
    _ ≤ (List.range NUM).length := (hflat.subperm hsub).length_le
    _ = NUM := List.length_range

theorem Queues.short (hq : Queues s A P U) (hc : Chains s) :
    A.length + (P.length + U.length) ≤ 2 := by
  have hb := hc.bound hq.nodup (fun b hb => ((hq.mem b).mp hb).1)
  rw [List.length_append, List.length_append] at hb
  unfold NUM at hb
  omega

end Bound

section Descriptors
variable {s : State β} {i j k : Nat}

theorem alloc_desc_spec (s : State β) : Runs alloc_desc s fun r s' =>
    r = none ∧ s' = s ∨
    ∃ i, r = some i ∧ i < NUM ∧ s.free i = true ∧
      s' = { s with free := update s.free i false } := by
  unfold alloc_desc
  rw [runs_bind, runs_get]
  cases hf : (List.range NUM).find? s.free with
  | none => exact (runs_pure _).mpr (Or.inl ⟨rfl, rfl⟩)
  | some i =>
    dsimp only
    rw [runs_bind, runs_set, runs_pure]
    exact Or.inr ⟨i, rfl, List.mem_range.mp (List.mem_of_find?_eq_some hf), List.find?_some hf, rfl⟩

def State.freed (s : State β) (i : Nat) : State β :=
  { s with
    desc := update s.desc i { s.desc i with addr := .null }
    free := update s.free i true }

theorem free_desc_runs (hi : i < NUM) (hf : s.free i = false) {Q : Unit → State β → Prop}
    (hQ : Q () (s.freed i)) : Runs (free_desc i) s Q := by
  unfold free_desc
  rw [runs_bind, runs_panicIf, runs_bind, runs_get, runs_bind, runs_panicIf, runs_set]
  exact ⟨by omega, by rw [hf]; exact Bool.false_ne_true, hQ⟩

def SameLinks (d d' : Nat → VRingDesc β) : Prop :=
  ∀ x, (d' x).flags = (d x).flags ∧ (d' x).next = (d x).next

theorem freed_links (s : State β) (i : Nat) : SameLinks s.desc (s.freed i).desc := by
  intro x
  unfold State.freed
  dsimp only
  by_cases hx : x = i
  · rw [hx, update_self]
    exact ⟨rfl, rfl⟩
  · rw [update_of_ne hx]
    exact ⟨rfl, rfl⟩

theorem SameLinks.trans {d d' d'' : Nat → VRingDesc β} (h : SameLinks d d')
    (h' : SameLinks d' d'') : SameLinks d d'' :=
  fun x => ⟨(h' x).1.trans (h x).1, (h' x).2.trans (h x).2⟩

theorem update_update_self {f : Nat → Bool} {i : Nat} (hf : f i = true) :
    update (update f i false) i true = f := by
  rw [update_idem, ← hf, update_eq_self]

/-- `alloc3_desc` gets three descriptors, or leaves all of them as they were. -/
theorem alloc3_desc_spec (s : State β) : Runs alloc3_desc s fun r s' =>
    (r = none ∧ ∃ d, SameLinks s.desc d ∧ s' = { s with desc := d }) ∨
    ∃ i j k, r = some (i, j, k) ∧ (i < NUM ∧ j < NUM ∧ k < NUM) ∧ [i, j, k].Nodup ∧
      (s.free i = true ∧ s.free j = true ∧ s.free k = true) ∧
      s' = { s with free := update (update (update s.free i false) j false) k false } := by
  unfold alloc3_desc
  refine (alloc_desc_spec s).bind ?_
  rintro r1 s1 (⟨rfl, rfl⟩ | ⟨i, rfl, hi, hfi, rfl⟩)
  · exact (runs_pure _).mpr (Or.inl ⟨rfl, s1.desc, fun _ => ⟨rfl, rfl⟩, rfl⟩)
  dsimp only
  refine (alloc_desc_spec _).bind ?_
  rintro r2 s2 (⟨rfl, rfl⟩ | ⟨j, rfl, hj, hfj, rfl⟩)
  · -- The first one goes back.
    dsimp only
    rw [runs_bind]
    apply free_desc_runs hi (update_self ..)
    refine (runs_pure _).mpr (Or.inl ⟨rfl, _, freed_links _ i, ?_⟩)
    unfold State.freed
    dsimp only
    rw [update_update_self hfi]
  have hji : j ≠ i := by
    intro heq
    rw [heq] at hfj
    dsimp only at hfj
    rw [update_self] at hfj
    cases hfj
  have hfj' : s.free j = true := by
    dsimp only at hfj
    rw [update_of_ne hji] at hfj
    exact hfj
  dsimp only
  refine (alloc_desc_spec _).bind ?_
  rintro r3 s3 (⟨rfl, rfl⟩ | ⟨k, rfl, hk, hfk, rfl⟩)
  · -- The first two go back.
    dsimp only
    rw [runs_bind]
    apply free_desc_runs hi
    · dsimp only
      rw [update_of_ne hji.symm, update_self]
    rw [runs_bind]
    apply free_desc_runs hj
    · unfold State.freed
      dsimp only
      rw [update_of_ne hji, update_self]
    refine (runs_pure _).mpr (Or.inl ⟨rfl, _, (freed_links _ i).trans (freed_links _ j), ?_⟩)
    unfold State.freed
    dsimp only
    rw [update_comm hji, update_update_self hfi, update_update_self hfj']
  dsimp only at hfk
  have hkj : k ≠ j := by
    intro heq
    rw [heq, update_self] at hfk
    cases hfk
  rw [update_of_ne hkj] at hfk
  have hki : k ≠ i := by
    intro heq
    rw [heq, update_self] at hfk
    cases hfk
  rw [update_of_ne hki] at hfk
  refine (runs_pure _).mpr (Or.inr ⟨i, j, k, rfl, ⟨hi, hj, hk⟩, ?_, ⟨hfi, hfj', hfk⟩, rfl⟩)
  simp [hji.symm, hki.symm, hkj.symm]

theorem free_chain_round {n : Nat} (hi : i < NUM) (hf : s.free i = false)
    {Q : Unit → State β → Prop}
    (hnext : (s.desc i).flags &&& VRING_DESC_F_NEXT ≠ 0 →
      Runs (free_chain n (s.desc i).next) (s.freed i) Q)
    (hlast : (s.desc i).flags &&& VRING_DESC_F_NEXT = 0 → Q () (s.freed i)) :
    Runs (free_chain (n+1) i) s Q := by
  obtain ⟨hflags, hnext'⟩ := freed_links s i i
  unfold free_chain
  rw [runs_bind]
  apply free_desc_runs hi hf
  rw [runs_bind, runs_get, hflags, hnext', runs_ite, runs_pure]
  exact ⟨hnext, fun hc => hlast (not_not.mp hc)⟩

/-- `free_chain` follows the links and frees the three descriptors. -/
theorem free_chain_runs (hsmall : i < NUM ∧ j < NUM ∧ k < NUM) (hnd : [i, j, k].Nodup)
    (hfree : s.free i = false ∧ s.free j = false ∧ s.free k = false)
    (hi : (s.desc i).flags &&& VRING_DESC_F_NEXT ≠ 0) (hij : (s.desc i).next = j)
    (hj : (s.desc j).flags &&& VRING_DESC_F_NEXT ≠ 0) (hjk : (s.desc j).next = k)
    (hk : (s.desc k).flags &&& VRING_DESC_F_NEXT = 0) :
    Runs (free_chain (NUM+1) i) s fun _ s' => s' = ((s.freed i).freed j).freed k := by
  have hji : j ≠ i := by
    intro heq
    simp [heq] at hnd
  have hki : k ≠ i := by
    intro heq
    simp [heq] at hnd
  have hkj : k ≠ j := by
    intro heq
    simp [heq] at hnd
  have hd1 := freed_links s i
  have hd2 := hd1.trans (freed_links (s.freed i) j)
  apply free_chain_round hsmall.1 hfree.1
  · intro _
    rw [hij]
    apply free_chain_round hsmall.2.1 ((update_of_ne hji _ _).trans hfree.2.1)
    · intro _
      rw [(hd1 j).2, hjk]
      apply free_chain_round hsmall.2.2
      · exact (update_of_ne hkj _ _).trans
          ((update_of_ne hki _ _).trans hfree.2.2)
      · intro hc
        rw [(hd2 k).1] at hc
        exact absurd hk hc
      · exact fun _ => rfl
    · intro hc
      rw [(hd1 j).1] at hc
      exact absurd hc hj
  · exact fun hc => absurd hc hi

end Descriptors

section Steps
variable {s s' : State β} {A P U : List β} {b : β}

/-- A step leaves the descriptor `x` with the call that has it. -/
structure Same (s s' : State β) (x : Nat) : Prop where
  free : s'.free x = s.free x
  links : (s'.desc x).flags = (s.desc x).flags ∧ (s'.desc x).next = (s.desc x).next
  info : ∀ b, s.info x = ⟨some b, 0⟩ → s'.info x = ⟨some b, 0⟩
  chain : s'.chain x = s.chain x

theorem Held.nil : Held s b [] :=
  ⟨List.nodup_nil, nofun, nofun, fun h => absurd rfl h⟩

theorem Held.same {l : List Nat} (h : Held s b l) (hx : ∀ x ∈ l, Same s s' x) : Held s' b l := by
  refine ⟨h.nodup, ?_, ?_, ?_⟩
  · intro x hm
    rw [(hx x hm).free]
    exact h.taken x hm
  · intro i j k hl
    rw [hl] at hx
    obtain ⟨hi, hj, hk⟩ := And.intro (hx i (by simp)).links
      (And.intro (hx j (by simp)).links (hx k (by simp)).links)
    rw [hi.1, hi.2, hj.1, hj.2, hk.1]
    exact h.links i j k hl
  · intro hl
    obtain ⟨hinfo, hchain⟩ := h.info hl
    have hm : l.headD 0 ∈ l := by
      cases l with
      | nil => exact absurd rfl hl
      | cons x l => exact List.mem_cons_self
    rw [(hx _ hm).chain]
    exact ⟨(hx _ hm).info b hinfo, hchain⟩

theorem Chains.congr (h : Chains s) (hidx : s'.idx = s.idx) (hx : ∀ x, Same s s' x) :
    Chains s' := by
  refine ⟨?_, ?_, ?_⟩
  · intro b
    rw [hidx]
    exact (h.held b).same fun x _ => hx x
  · rw [hidx]
    exact h.apart
  · intro x hlt hf
    rw [(hx x).free] at hf
    rw [hidx]
    exact h.taken x hlt hf

variable [DecidableEq β]

theorem idx_update {x : Pc} (hpc : s'.pc = update s.pc b x) (c : β) :
    s'.idx c = if c = b then x.idx else s.idx c := by
  unfold State.idx
  rw [hpc, update_apply, apply_ite Pc.idx]

/-- One call takes the descriptors `l` in place of those that it had. -/
theorem Chains.change (h : Chains s) {l : List Nat}
    (hidx : ∀ c, s'.idx c = if c = b then l else s.idx c) (hnew : Held s' b l)
    (hother : ∀ c x, c ≠ b → x ∈ s.idx c → Same s s' x ∧ x ∉ l)
    (hfree : ∀ x, s'.free x = false → x ∈ l ∨ s.free x = false ∧ x ∉ s.idx b) : Chains s' := by
  refine ⟨?_, ?_, ?_⟩
  · intro c
    rw [hidx]
    split_ifs with hc
    · rw [hc]
      exact hnew
    · exact (h.held c).same fun x hx => (hother c x hc hx).1
  · intro c d x hc hd
    rw [hidx] at hc hd
    split_ifs at hc hd with h1 h2 h2
    · rw [h1, h2]
    · exact absurd hc (hother d x h2 hd).2
    · exact absurd hd (hother c x h1 hc).2
    · exact h.apart c d x hc hd
  · intro x hlt hf
    rcases hfree x hf with hm | ⟨hf', hnot⟩
    · exact ⟨b, by rw [hidx, if_pos rfl]; exact hm⟩
    · obtain ⟨c, hc⟩ := h.taken x hlt hf'
      refine ⟨c, ?_⟩
      rw [hidx, if_neg]
      · exact hc
      · intro heq
        rw [heq] at hc
        exact hnot hc

theorem Chains.submit (h : Chains s) (hb : s.idx b = []) {write : Bool} {i j k : Nat}
    (hsmall : i < NUM ∧ j < NUM ∧ k < NUM) (hnd : [i, j, k].Nodup)
    (hfree : s.free i = true ∧ s.free j = true ∧ s.free k = true)
    (hs' : s' = State.submit { s with free := update (update
      (update s.free i false) j false) k false } b write i j k)
    (hidx : ∀ c, s'.idx c = if c = b then [i, j, k] else s.idx c) : Chains s' := by
  have hfree' (x : Nat) : s'.free x = if x ∈ [i, j, k] then false else s.free x := by
    rw [hs']
    unfold State.submit
    dsimp only
    simp only [update_apply, List.mem_cons, List.not_mem_nil, or_false]
    split_ifs <;> first | rfl | omega
  apply h.change hidx
  · refine ⟨hnd, ?_, ?_, ?_⟩
    · intro x hx
      rw [hfree', if_pos hx]
      simp only [List.mem_cons, List.not_mem_nil, or_false] at hx
      refine ⟨?_, rfl⟩
      omega
    · intro i' j' k' hl
      simp only [List.cons.injEq, and_true] at hl
      obtain ⟨rfl, rfl, rfl⟩ := hl
      simp only [List.nodup_cons, List.mem_cons, List.not_mem_nil, or_false, not_or] at hnd
      obtain ⟨⟨hij, hik⟩, hjk, _⟩ := hnd
      rw [hs']
      unfold State.submit
      dsimp only
      rw [update_of_ne hik, update_of_ne hij, update_self, update_of_ne hjk, update_self, update_self]
      have hnext : VRING_DESC_F_NEXT &&& VRING_DESC_F_NEXT ≠ 0 := by decide
      have hdata : ∀ w : Bool, ((if w then 0 else VRING_DESC_F_WRITE) ||| VRING_DESC_F_NEXT) &&&
          VRING_DESC_F_NEXT ≠ 0 := by decide
      have hlast : VRING_DESC_F_WRITE &&& VRING_DESC_F_NEXT = 0 := by decide
      exact ⟨hnext, rfl, hdata write, rfl, hlast⟩
    · intro _
      rw [hs']
      exact ⟨update_self .., update_self ..⟩
  · intro c x _ hx
    have hout : x ∉ [i, j, k] := by
      intro hm
      have htaken := ((h.held c).taken x hx).2
      simp only [List.mem_cons, List.not_mem_nil, or_false] at hm
      rcases hm with rfl | rfl | rfl
      · rw [hfree.1] at htaken
        cases htaken
      · rw [hfree.2.1] at htaken
        cases htaken
      · rw [hfree.2.2] at htaken
        cases htaken
    have hne := hout
    simp only [List.mem_cons, List.not_mem_nil, or_false, not_or] at hne
    refine ⟨⟨by rw [hfree', if_neg hout], ?_, ?_, ?_⟩, hout⟩
    all_goals
      rw [hs']
      unfold State.submit
      dsimp only
    · rw [update_of_ne hne.2.2, update_of_ne hne.2.1, update_of_ne hne.1]
      exact ⟨rfl, rfl⟩
    · rw [update_of_ne hne.1]
      exact fun _ hi => hi
    · rw [update_of_ne hne.1]
  · intro x hf
    rw [hfree'] at hf
    rw [hb]
    split_ifs at hf with hm
    · exact Or.inl hm
    · exact Or.inr ⟨hf, List.not_mem_nil⟩

theorem Chains.finish (h : Chains s) {i j k : Nat} (hb : s.idx b = [i, j, k])
    (hidx : ∀ c, s'.idx c = if c = b then [] else s.idx c)
    (hfree : s'.free = update (update (update s.free i true) j true) k true)
    (hdesc : SameLinks s.desc s'.desc) (hchain : s'.chain = s.chain)
    (hinfo : ∀ x, x ≠ i → s'.info x = s.info x) : Chains s' := by
  have hfree' (x : Nat) : s'.free x = if x ∈ [i, j, k] then true else s.free x := by
    rw [hfree]
    simp only [update_apply, List.mem_cons, List.not_mem_nil, or_false]
    split_ifs <;> first | rfl | omega
  apply h.change hidx Held.nil
  · intro c x hc hx
    have hout : x ∉ [i, j, k] := by
      rw [← hb]
      exact fun hm => hc (h.apart c b x hx hm)
    refine ⟨⟨by rw [hfree', if_neg hout], hdesc x, ?_, congrFun hchain x⟩, List.not_mem_nil⟩
    rw [hinfo x fun heq => hout (by rw [heq]; exact List.mem_cons_self)]
    exact fun _ hi => hi
  · intro x hf
    rw [hfree'] at hf
    rw [hb]
    split_ifs at hf with hm
    exact Or.inr ⟨hf, hm⟩

end Steps

section Rings
variable {s s' : State β} {A P U : List β} {r : Rings} {a p u : List Nat}

theorem toNat_add_mod (x : BitVec 16) (n : Nat) :
    (x + BitVec.ofNat 16 n).toNat % NUM = (x.toNat + n) % NUM := by
  rw [BitVec.toNat_add, BitVec.toNat_ofNat]
  unfold NUM
  omega

theorem ofNat_succ (n : Nat) : BitVec.ofNat 16 (n+1) = BitVec.ofNat 16 n + 1 :=
  BitVec.ofNat_add n 1

theorem Rings.Hold.submit (h : r.Hold a p u) (hlen : a.length < NUM) (i : Nat) :
    Rings.Hold { r with
      avail := update r.avail (r.availIdx.toNat % NUM) i
      availIdx := r.availIdx + 1 } (a ++ [i]) p u := by
  refine ⟨?_, ?_, h.pending, h.used_lt, h.usedId, h.elems⟩
  · dsimp only
    rw [h.availIdx, List.length_append, List.length_singleton, ofNat_succ, BitVec.add_assoc]
  · dsimp only
    rw [h.availIdx, toNat_add_mod]
    exact h.avail.push hlen i

theorem Rings.Hold.fetch {i : Nat} (h : r.Hold (i :: a) p u) :
    Rings.Hold { r with
      pending := r.avail (r.seen.toNat % NUM) :: r.pending
      seen := r.seen + 1 } a (i :: p) u := by
  refine ⟨?_, ?_, ?_, h.used_lt, h.usedId, h.elems⟩
  · dsimp only
    rw [h.availIdx, List.length_cons, ofNat_succ, BitVec.add_comm _ 1, BitVec.add_assoc]
  · exact h.avail.pop.congr (toNat_add_mod r.seen 1)
  · dsimp only
    rw [h.avail.first, h.pending]

theorem Rings.Hold.complete (h : r.Hold a p u) (hlen : u.length < NUM) (n i : Nat) :
    Rings.Hold { r with
      elems := update r.elems (r.usedId.toNat % NUM) i
      usedId := r.usedId + 1
      pending := r.pending.eraseIdx n } a (p.eraseIdx n) (u ++ [i]) := by
  refine ⟨h.availIdx, h.avail, by rw [h.pending], h.used_lt, ?_, ?_⟩
  · dsimp only
    rw [List.length_append, List.length_singleton]
    have hmod : (r.usedId + 1).toNat % NUM = (r.usedId.toNat + 1) % NUM := toNat_add_mod r.usedId 1
    rw [hmod, Nat.add_mod, h.usedId, ← Nat.add_mod, Nat.add_assoc]
  · dsimp only
    rw [h.usedId]
    exact h.elems.push hlen i

theorem Rings.Hold.clear {i : Nat} (h : r.Hold a p (i :: u)) :
    Rings.Hold { r with used_idx := (r.used_idx+1) % NUM } a p u := by
  refine ⟨h.availIdx, h.avail, h.pending, Nat.mod_lt _ (by decide), ?_, ?_⟩
  · dsimp only
    rw [h.usedId, List.length_cons, Nat.mod_add_mod, Nat.add_assoc, Nat.add_comm 1]
  · exact h.elems.pop.congr (Nat.mod_mod _ _)

/-- The chains in the rings, with the heads that they have afterwards. -/
theorem Queues.hold (hq : Queues s A P U) (hidx : ∀ c ∈ A ++ (P ++ U), s'.idx c = s.idx c) :
    s.rings.Hold (A.map s'.head) (P.map s'.head) (U.map s'.head) := by
  have hhead (c : β) (hc : c ∈ A ++ (P ++ U)) : s'.head c = s.head c := by
    unfold State.head
    rw [hidx c hc]
  have hA : A.map s'.head = A.map s.head :=
    List.map_congr_left fun c hc => hhead c (List.mem_append_left _ hc)
  have hP : P.map s'.head = P.map s.head :=
    List.map_congr_left fun c hc => hhead c (List.mem_append_right _ (List.mem_append_left _ hc))
  have hU : U.map s'.head = U.map s.head :=
    List.map_congr_left fun c hc => hhead c (List.mem_append_right _ (List.mem_append_right _ hc))
  rw [hA, hP, hU]
  exact hq.rings

theorem Queues.congr (hq : Queues s A P U) (hidx : ∀ c ∈ A ++ (P ++ U), s'.idx c = s.idx c)
    (hmem : ∀ c, s'.idx c ≠ [] ∧ s'.disk c = true ↔ s.idx c ≠ [] ∧ s.disk c = true)
    (hrings : s'.rings = s.rings)
    (hrecord : s'.completed = s.completed ∧ s'.cleared = s.cleared) : Queues s' A P U := by
  refine ⟨hq.nodup, ?_, ?_, ?_⟩
  · intro c
    rw [hmem]
    exact hq.mem c
  · rw [hrings]
    exact hq.hold hidx
  · rw [hrecord.1, hrecord.2]
    exact hq.completed

end Rings

section Runs
variable [DecidableEq β] {s s' : State β} {A P U : List β} {b : β}

def Inv (s : State β) : Prop := Chains s ∧ ∃ A P U, Queues s A P U

/-- Only a round of `virtio_disk_intr` clears a `b->disk`, and it is the one of the buffer
that was submitted with the chain it finds in the used ring. -/
def Clears (s : State β) (o : Op β) (s' : State β) : Prop :=
  match o with
  | .intrRound => ∃ c, s.chain (s.elems s.used_idx) = some c ∧ s.disk c = true ∧
      s'.disk = update s.disk c false ∧ s'.cleared = s.cleared ++ [c]
  | _ => (∀ c, s.disk c = true → s'.disk c = true) ∧ s'.cleared = s.cleared

section
omit [DecidableEq β]

theorem fresh_inv (h : s.Fresh) : Inv s := by
  obtain ⟨hfree, havail, hused, hused', hdisk, hpc, _, hseen, hpending, hcompleted, hcleared⟩ := h
  have hidx (b : β) : s.idx b = [] := by
    unfold State.idx
    rw [hpc]
    rfl
  refine ⟨⟨?_, ?_, ?_⟩, [], [], [], ⟨List.nodup_nil, ?_, ⟨?_, .nil, hpending, ?_, ?_, .nil⟩, ?_⟩⟩
  · intro b
    rw [hidx]
    exact Held.nil
  · intro b c x hx
    rw [hidx] at hx
    cases hx
  · intro x hx hf
    rw [hfree x hx] at hf
    cases hf
  · intro b
    rw [hidx]
    simp
  · change s.availIdx = s.seen + _
    rw [havail, hseen]
    rfl
  · change s.used_idx < NUM
    rw [hused']
    decide
  · change s.usedId.toNat % NUM = (s.used_idx + _) % NUM
    rw [hused, hused']
    rfl
  · rw [hcompleted, hcleared]
    rfl

/-- Steps of which the descriptors, the rings and the record know nothing. -/
theorem Inv.quiet (h : Inv s) (hidx : s'.idx = s.idx) (hx : ∀ x, Same s s' x)
    (hdisk : s'.disk = s.disk) (hrings : s'.rings = s.rings)
    (hrecord : s'.completed = s.completed ∧ s'.cleared = s.cleared) : Inv s' := by
  obtain ⟨hc, A, P, U, hq⟩ := h
  refine ⟨hc.congr hidx hx, A, P, U, hq.congr (fun c _ => congrFun hidx c) ?_ hrings hrecord⟩
  intro c
  rw [hidx, hdisk]

end

theorem call_inv (h : Inv s) {write : Bool} (hpc : s.pc b = .out) :
    Inv { s with pc := update s.pc b (.alloc write) } := by
  set s' : State β := { s with pc := update s.pc b (.alloc write) } with hs'
  have hidx : s'.idx = s.idx := by
    funext c
    have hu : s'.pc = update s.pc b (.alloc write) := rfl
    rw [idx_update hu]
    split_ifs with hcb
    · unfold State.idx
      rw [hcb, hpc]
      rfl
    · rfl
  exact h.quiet hidx (fun x => ⟨rfl, ⟨rfl, rfl⟩, fun _ hi => hi, rfl⟩) rfl rfl ⟨rfl, rfl⟩

/-- The chain of `b` is put at the end of the available ring. -/
theorem Queues.submit (hq : Queues s A P U) (hc : Chains s) (hb : s.idx b = []) {i j k : Nat}
    (hidx : ∀ c, s'.idx c = if c = b then [i, j, k] else s.idx c)
    (hdisk : s'.disk = update s.disk b true)
    (hrings : s'.rings = { s.rings with
      avail := update s.avail (s.availIdx.toNat % NUM) i
      availIdx := s.availIdx + 1 })
    (hrecord : s'.completed = s.completed ∧ s'.cleared = s.cleared) :
    Queues s' (A ++ [b]) P U := by
  have hnot : b ∉ A ++ (P ++ U) := fun hm => ((hq.mem b).mp hm).1 hb
  have hhead : s'.head b = i := by
    unfold State.head
    rw [hidx, if_pos rfl]
    rfl
  have hperm : (A ++ [b] ++ (P ++ U)).Perm (b :: (A ++ (P ++ U))) := by
    rw [List.append_assoc]
    exact List.perm_middle
  have hshort := hq.short hc
  refine ⟨?_, ?_, ?_, ?_⟩
  · rw [hperm.nodup_iff, List.nodup_cons]
    exact ⟨hnot, hq.nodup⟩
  · intro c
    rw [hperm.mem_iff, List.mem_cons, hq.mem, hidx, hdisk]
    by_cases hcb : c = b
    · rw [hcb, if_pos rfl, update_self]
      simp
    · rw [if_neg hcb, update_of_ne hcb]
      simp [hcb]
  · rw [List.map_append, List.map_singleton, hhead, hrings]
    refine (hq.hold fun c hm => ?_).submit (by rw [List.length_map]; unfold NUM; omega) i
    rw [hidx, if_neg]
    intro heq
    exact hnot (heq ▸ hm)
  · rw [hrecord.1, hrecord.2]
    exact hq.completed

theorem begin_inv (h : Inv s) {write : Bool} (hpc : s.pc b = .alloc write) :
    Runs (rwBegin b write) s fun _ s' =>
      Inv s' ∧ (∀ c, s.disk c = true → s'.disk c = true) ∧ s'.cleared = s.cleared := by
  have hb : s.idx b = [] := by
    unfold State.idx
    rw [hpc]
    rfl
  unfold rwBegin
  apply (alloc3_desc_spec s).bind
  intro r s1 hr
  obtain ⟨hnone, d, hd, hs1⟩ | ⟨i, j, k, hsome, hsmall, hnd, hfree, hs1⟩ := hr
  · -- It sleeps on `&disk.free[0]`.
    rw [hnone, runs_pure, hs1]
    exact ⟨h.quiet rfl (fun x => ⟨rfl, hd x, fun _ hi => hi, rfl⟩) rfl rfl ⟨rfl, rfl⟩,
      fun c hc => hc, rfl⟩
  · obtain ⟨hc, A, P, U, hq⟩ := h
    rw [hsome]
    dsimp only
    rw [runs_modify]
    set s2 : State β := State.submit s1 b write i j k with hs2
    rw [hs1] at hs2
    have hidx (c : β) : s2.idx c = if c = b then [i, j, k] else s.idx c := by
      have hpc' : s2.pc = update s.pc b (.wait i j k) := by
        rw [hs2]
        rfl
      exact idx_update hpc' c
    refine ⟨⟨hc.submit hb hsmall hnd hfree hs2 hidx, A ++ [b], P, U, ?_⟩, ?_, by rw [hs2]; rfl⟩
    · apply hq.submit hc hb hidx <;> rw [hs2]
      · rfl
      · rfl
      · exact ⟨rfl, rfl⟩
    · intro c hdisk
      rw [hs2]
      change update s.disk b true c = true
      by_cases hcb : c = b
      · rw [hcb, update_self]
      · rw [update_of_ne hcb]
        exact hdisk

theorem wake_inv (h : Inv s) {i j k : Nat} (hpc : s.pc b = .wait i j k) :
    Runs (rwEnd b i) s fun _ s' => Inv s' ∧ s'.disk = s.disk ∧ s'.cleared = s.cleared := by
  unfold rwEnd
  rw [runs_bind, runs_get, runs_ite, runs_pure]
  refine ⟨fun _ => ⟨h, rfl, rfl⟩, ?_⟩
  intro hdisk
  obtain ⟨hc, A, P, U, hq⟩ := h
  have hb : s.idx b = [i, j, k] := by
    unfold State.idx
    rw [hpc]
    rfl
  have hheld : Held s b [i, j, k] := hb ▸ hc.held b
  obtain ⟨hi, hfi⟩ := hheld.taken i (by simp)
  obtain ⟨hj, hfj⟩ := hheld.taken j (by simp)
  obtain ⟨hk, hfk⟩ := hheld.taken k (by simp)
  obtain ⟨h1, h2, h3, h4, h5⟩ := hheld.links i j k rfl
  rw [runs_bind, runs_set, runs_bind]
  set s1 : State β := { s with info := update s.info i { s.info i with b := none } } with hs1
  have hrun : Runs (free_chain (NUM+1) i) s1 fun _ s' => s' = ((s1.freed i).freed j).freed k :=
    free_chain_runs ⟨hi, hj, hk⟩ hheld.nodup ⟨hfi, hfj, hfk⟩ h1 h2 h3 h4 h5
  apply hrun.imp
  intro _ s2 hs2
  subst hs2
  rw [runs_modify]
  set s3 : State β := { ((s1.freed i).freed j).freed k with
    pc := update (((s1.freed i).freed j).freed k).pc b .out } with hs3
  have hpc' : s3.pc = update s.pc b .out := rfl
  have hidx := idx_update hpc'
  have hlinks : SameLinks s.desc s3.desc :=
    ((freed_links s1 i).trans (freed_links _ j)).trans (freed_links _ k)
  refine ⟨⟨hc.finish hb hidx rfl hlinks rfl fun x hx => update_of_ne hx _ _, A, P, U, ?_⟩, rfl, rfl⟩
  refine hq.congr ?_ ?_ rfl ⟨rfl, rfl⟩
  · intro c hm
    rw [hidx, if_neg]
    intro heq
    rw [heq] at hm
    exact hdisk ((hq.mem b).mp hm).2
  · intro c
    rw [hidx]
    change _ ∧ s.disk c = true ↔ _
    by_cases hcb : c = b
    · rw [hcb, if_pos rfl]
      simp [hdisk]
    · rw [if_neg hcb]

omit [DecidableEq β] in
/-- The comparison modulo `NUM` finds every chain that was completed. -/
theorem Queues.behind_iff (hc : Chains s) (hq : Queues s A P U) : s.behind ↔ U ≠ [] := by
  have hshort := hq.short hc
  have hlt : s.used_idx < NUM := hq.rings.used_lt
  have hid : s.usedId.toNat % NUM = (s.used_idx + (U.map s.head).length) % NUM := hq.rings.usedId
  rw [List.length_map] at hid
  unfold State.behind
  rw [hid, ← List.length_pos_iff]
  unfold NUM at *
  omega

/-- The interrupt handler has seen the first chain of the used ring. -/
theorem Queues.clear (hq : Queues s A P (b :: U)) : Queues { s with
    disk := update s.disk b false
    used_idx := (s.used_idx+1) % NUM
    cleared := s.cleared ++ [b] } A P U := by
  have hperm : (A ++ (P ++ b :: U)).Perm (b :: (A ++ (P ++ U))) := by
    rw [← List.append_assoc, ← List.append_assoc]
    exact List.perm_middle
  have hnd := hq.nodup
  rw [hperm.nodup_iff, List.nodup_cons] at hnd
  refine ⟨hnd.2, ?_, hq.rings.clear, ?_⟩
  · intro c
    have hm := hq.mem c
    rw [hperm.mem_iff, List.mem_cons] at hm
    change _ ↔ s.idx c ≠ [] ∧ update s.disk b false c = true
    by_cases hcb : c = b
    · rw [hcb, update_self]
      simp [hnd.1]
    · rw [update_of_ne hcb, ← hm]
      simp [hcb]
  · dsimp only
    rw [hq.completed, List.append_assoc]
    rfl

/-- One round of the interrupt handler takes the next completed chain. -/
theorem intrRound_inv (h : Inv s) (hbehind : s.behind) :
    Runs intrRound s fun _ s' => Inv s' ∧ Clears s .intrRound s' := by
  obtain ⟨hc, A, P, U, hq⟩ := h
  cases U with
  | nil => exact absurd rfl ((hq.behind_iff hc).mp hbehind)
  | cons b U =>
    have helem : s.elems s.used_idx = s.head b := by
      have hfirst : s.elems (s.used_idx % NUM) = s.head b := hq.rings.elems.first
      rwa [Nat.mod_eq_of_lt (show s.used_idx < NUM from hq.rings.used_lt)] at hfirst
    obtain ⟨hne, hdisk⟩ := (hq.mem b).mp (by simp)
    obtain ⟨hinfo, hchain⟩ := (hc.held b).info hne
    unfold intrRound
    rw [runs_bind, runs_get, runs_bind, runs_panicIf, helem, State.head, hinfo]
    refine ⟨fun hs => hs rfl, ?_⟩
    dsimp only
    rw [runs_set]
    exact ⟨⟨hc.congr rfl fun x => ⟨rfl, ⟨rfl, rfl⟩, fun _ hi => hi, rfl⟩, A, P, U, hq.clear⟩,
      b, helem ▸ hchain, hdisk, rfl, rfl⟩

section
omit [DecidableEq β]

theorem fetch_inv (h : Inv s) (hseen : s.seen ≠ s.availIdx) : Inv s.fetch := by
  obtain ⟨hc, A, P, U, hq⟩ := h
  refine ⟨hc.congr rfl fun x => ⟨rfl, ⟨rfl, rfl⟩, fun _ hi => hi, rfl⟩, ?_⟩
  cases A with
  | nil =>
    have hidx : s.availIdx = s.seen + 0#16 := hq.rings.availIdx
    rw [BitVec.add_zero] at hidx
    exact absurd hidx.symm hseen
  | cons b A =>
    have hperm : (A ++ (b :: P ++ U)).Perm (b :: A ++ (P ++ U)) := List.perm_middle
    refine ⟨A, b :: P, U, ?_, ?_, hq.rings.fetch, hq.completed⟩
    · rw [hperm.nodup_iff]
      exact hq.nodup
    · intro c
      rw [hperm.mem_iff]
      exact hq.mem c

theorem putStatus_same (s : State β) (i x : Nat) (b : β) (h : s.info x = ⟨some b, 0⟩) :
    s.putStatus i x = ⟨some b, 0⟩ := by
  unfold State.putStatus
  cases (s.desc (s.desc (s.desc i).next).next).addr with
  | status y =>
    dsimp only
    by_cases hx : x = y
    · rw [← hx, update_self, h]
    · rw [update_of_ne hx]
      exact h
  | null | header b write | data b => exact h

theorem complete_inv (h : Inv s) {n : Nat} (hn : n < s.pending.length) :
    Inv (s.complete n) ∧ (s.complete n).disk = s.disk ∧ (s.complete n).cleared = s.cleared := by
  obtain ⟨hc, A, P, U, hq⟩ := h
  have hpending : s.pending = P.map s.head := hq.rings.pending
  have hn' : n < P.length := by
    rw [hpending, List.length_map] at hn
    exact hn
  set b := P.get ⟨n, hn'⟩ with hb
  have hpend : s.pending[n]? = some (s.head b) := by
    rw [hpending, List.getElem?_map, List.getElem?_eq_getElem hn']
    rfl
  have hmem : b ∈ A ++ (P ++ U) :=
    List.mem_append_right _ (List.mem_append_left _ (P.get_mem ⟨n, hn'⟩))
  have hchain : s.chain (s.head b) = some b := ((hc.held b).info ((hq.mem b).mp hmem).1).2
  have heq : s.complete n = { s with
      info := s.putStatus (s.head b)
      elems := update s.elems (s.usedId.toNat % NUM) (s.head b)
      usedId := s.usedId + 1
      pending := s.pending.eraseIdx n
      completed := s.completed ++ [b] } := by
    unfold State.complete
    rw [hpend]
    dsimp only
    rw [hchain]
    rfl
  have hP : (b :: P.eraseIdx n).Perm P := List.getElem_cons_eraseIdx_perm hn'
  have hperm : (A ++ (P.eraseIdx n ++ (U ++ [b]))).Perm (A ++ (P ++ U)) := by
    apply List.Perm.append_left
    calc (P.eraseIdx n ++ (U ++ [b])).Perm (P.eraseIdx n ++ (b :: U)) :=
          List.Perm.append_left _ (List.perm_append_singleton b U)
      _ |>.Perm (b :: P.eraseIdx n ++ U) := List.perm_middle
      _ |>.Perm (P ++ U) := List.Perm.append_right _ hP
  have hshort := hq.short hc
  have hrings := hq.rings.complete (by rw [List.length_map]; unfold NUM; omega) n (s.head b)
  rw [heq]
  refine ⟨⟨hc.congr rfl fun x => ⟨rfl, ⟨rfl, rfl⟩, putStatus_same s _ x, rfl⟩,
    A, P.eraseIdx n, U ++ [b], ?_, ?_, ?_, ?_⟩, rfl, rfl⟩
  · rw [hperm.nodup_iff]
    exact hq.nodup
  · intro c
    rw [hperm.mem_iff]
    exact hq.mem c
  · rw [List.map_append, List.map_singleton, ← List.eraseIdx_map]
    exact hrings
  · dsimp only
    rw [hq.completed, List.append_assoc]

theorem intr_inv (h : Inv s) (x : Bool) : Inv { s with intr := x } :=
  h.quiet rfl (fun _ => ⟨rfl, ⟨rfl, rfl⟩, fun _ hi => hi, rfl⟩) rfl rfl ⟨rfl, rfl⟩

end

/-- Every step runs, keeps the invariant, and clears only what it should. -/
theorem step_runs (h : Inv s) {o : Op β} (he : o.enabled s) :
    Runs o.run s fun _ s' => Inv s' ∧ Clears s o s' := by
  cases o with
  | call b write =>
    unfold Op.run
    rw [runs_modify]
    exact ⟨call_inv h he, fun _ hc => hc, rfl⟩
  | begin b =>
    obtain ⟨_, write, hpc⟩ := he
    unfold Op.run
    rw [runs_bind, runs_get, hpc]
    exact begin_inv h hpc
  | wake b =>
    obtain ⟨_, i, j, k, hpc⟩ := he
    unfold Op.run
    rw [runs_bind, runs_get, hpc]
    apply (wake_inv h hpc).imp
    intro _ s' ⟨hi, hdisk, hcl⟩
    refine ⟨hi, ?_, hcl⟩
    intro c hd
    rw [hdisk]
    exact hd
  | intrBegin =>
    unfold Op.run
    rw [runs_modify]
    exact ⟨intr_inv h true, fun _ hc => hc, rfl⟩
  | intrRound => exact intrRound_inv h he.2
  | intrEnd =>
    unfold Op.run
    rw [runs_modify]
    exact ⟨intr_inv h false, fun _ hc => hc, rfl⟩
  | fetch =>
    unfold Op.run
    rw [runs_modify]
    exact ⟨fetch_inv h he, fun _ hc => hc, rfl⟩
  | complete n =>
    unfold Op.run
    rw [runs_modify]
    obtain ⟨hi, hdisk, hcl⟩ := complete_inv h he
    refine ⟨hi, ?_, hcl⟩
    intro c hd
    rw [hdisk]
    exact hd

theorem reachable_inv (hr : Reachable s) : Inv s := by
  apply Reaches.invariant (I := Inv) (fun _ => fresh_inv) ?_ hr
  intro s o h he a s' hrun
  exact ((step_runs h he).of_eq hrun).1

/-- The requests stay apart. The descriptors of the calls and the free ones share out
`0..NUM-1`, no step panics, a round of `virtio_disk_intr` clears `b->disk` of the buffer
of its chain and no step clears another, and what was completed is seen in that order, all
of it when the loop of `virtio_disk_intr` ends. -/
theorem requests_apart (hr : Reachable s) :
    (∀ b i j k, s.pc b = .wait i j k → [i, j, k].Nodup ∧
      ∀ x ∈ [i, j, k], x < NUM ∧ s.free x = false) ∧
    (∀ b c, b ≠ c → List.Disjoint (s.idx b) (s.idx c)) ∧
    (∀ x, x < NUM → s.free x = false → ∃! b, x ∈ s.idx b) ∧
    (∀ o : Op β, o.enabled s → Runs o.run s fun _ s' => Clears s o s') ∧
    s.cleared <+: s.completed ∧ (¬ s.behind → s.cleared = s.completed) := by
  have h := reachable_inv hr
  obtain ⟨hc, A, P, U, hq⟩ := h
  refine ⟨?_, ?_, ?_, ?_, ?_, ?_⟩
  · intro b i j k hpc
    have hb : s.idx b = [i, j, k] := by
      unfold State.idx
      rw [hpc]
      rfl
    rw [← hb]
    exact ⟨(hc.held b).nodup, (hc.held b).taken⟩
  · intro b c hne x hb hcx
    exact hne (hc.apart b c x hb hcx)
  · intro x hx hf
    obtain ⟨b, hb⟩ := hc.taken x hx hf
    exact ⟨b, hb, fun c hcx => hc.apart c b x hcx hb⟩
  · intro o he
    exact (step_runs (reachable_inv hr) he).imp fun _ _ hs => hs.2
  · rw [hq.completed]
    exact List.prefix_append _ _
  · intro hb
    rw [hq.behind_iff hc, not_not] at hb
    rw [hq.completed, hb, List.append_nil]

def idleDisk : State Bool where
  free := fun _ => true
  desc := fun _ => ⟨.null, 0, 0, 0⟩
  info := fun _ => ⟨none, 0⟩
  avail := fun _ => 0
  availIdx := 0
  elems := fun _ => 0
  usedId := 0
  used_idx := 0
  disk := fun _ => false
  pc := fun _ => .out
  intr := false
  seen := 0
  pending := []
  chain := fun _ => none
  completed := []
  cleared := []

/-- Two requests that the device has completed, the later one first, when the interrupt
comes. -/
theorem requests_apart_two : ∃ s : State Bool, Reachable s ∧ s.pc true = .wait 0 1 2 ∧
    s.pc false = .wait 3 4 5 ∧ List.Disjoint (s.idx true) (s.idx false) ∧
    s.completed = [false, true] ∧ s.cleared = [] ∧ Op.enabled s .intrRound ∧
    Runs Op.intrRound.run s fun _ s' => Clears s .intrRound s' := by
  have hfresh : idleDisk.Fresh :=
    ⟨fun _ _ => rfl, rfl, rfl, rfl, fun _ => rfl, fun _ => rfl, rfl, rfl, rfl, rfl, rfl⟩
  have h0 : Reachable idleDisk := Reaches.init hfresh
  have h1 := h0.step (o := Op.call true false) rfl rfl
  have h2 := h1.step (o := Op.call false true) rfl rfl
  have h3 := h2.step (o := Op.begin true) ⟨rfl, false, rfl⟩ rfl
  have h4 := h3.step (o := Op.begin false) ⟨rfl, true, rfl⟩ rfl
  have h5 := h4.step (o := Op.fetch) (show (0 : BitVec 16) ≠ 2 by decide) rfl
  have h6 := h5.step (o := Op.fetch) (show (1 : BitVec 16) ≠ 2 by decide) rfl
  have h7 := h6.step (o := Op.complete 0) (show 0 < 2 by decide) rfl
  have h8 := h7.step (o := Op.complete 0) (show 0 < 1 by decide) rfl
  have h9 := h8.step (o := Op.intrBegin) rfl rfl
  have hen := And.intro (rfl : true = true) (show (0 : Nat) % NUM ≠ (2 : BitVec 16).toNat % NUM by decide)
  obtain ⟨-, hapart, -, hrun, -⟩ := requests_apart h9
  exact ⟨_, h9, rfl, rfl, hapart true false (by decide), rfl, rfl, hen, hrun .intrRound hen⟩

end Runs

end Xv6.Virtio
