import Xv6.FsVolume
import Xv6.Allocation

/-! Where block numbers stand: in the addresses of an inode and in its indirect block.
Each write of `bmap` and `itrunc` changes one such place. -/
namespace Xv6

open Function

/-- A place for a block number: an inode, and an index into `addrs` or, from
`NDIRECT+1` on, into its indirect block. -/
abbrev Place := Nat × Nat

/-- The block number at a place, for inodes `ino` and data blocks `data`. A free inode
has none. -/
def own (ino : Nat → Dinode) (data : Nat → Bytes) (p : Place) : Nat :=
  if (ino p.1).type = 0 then 0
  else if h : p.2 < NDIRECT+1 then ((ino p.1).addrs ⟨p.2, h⟩).toNat
  else if (ino p.1).indirect = 0 then 0
  else if p.2 < NDIRECT+1+NINDIRECT then leGet 4 (data (ino p.1).indirect) (4*(p.2-(NDIRECT+1)))
  else 0

def blockPlace (bn : Nat) : Nat := if bn < NDIRECT then bn else bn+1

section Own
variable {ino : Nat → Dinode} {data : Nat → Bytes} {i b : Nat}

theorem blockPlace_ne (bn : Nat) : blockPlace bn ≠ NDIRECT := by
  unfold blockPlace
  split_ifs <;> omega

theorem blockPlace_inj {m n : Nat} (h : blockPlace m = blockPlace n) : m = n := by
  unfold blockPlace at h
  split_ifs at h <;> omega

theorem own_free (h : (ino i).type = 0) (k : Nat) : own ino data (i, k) = 0 := by
  unfold own
  rw [if_pos h]

theorem own_addr (data : Nat → Bytes) (h : (ino i).type ≠ 0) (k : Fin (NDIRECT+1)) :
    own ino data (i, k) = ((ino i).addrs k).toNat := by
  unfold own
  rw [if_neg h, dif_pos k.isLt]

theorem own_indirect (data : Nat → Bytes) (h : (ino i).type ≠ 0) : own ino data (i, NDIRECT) = (ino i).indirect :=
  own_addr data h (Fin.last NDIRECT)

theorem own_entry (h : (ino i).type ≠ 0) (hind : (ino i).indirect ≠ 0) {e : Nat}
    (he : e < NINDIRECT) :
    own ino data (i, NDIRECT+1+e) = leGet 4 (data (ino i).indirect) (4*e) := by
  unfold own
  rw [if_neg h, dif_neg (by omega), if_neg hind, if_pos (by omega)]
  congr 2
  omega

theorem own_entry_none (hind : (ino i).indirect = 0) {k : Nat} (hk : NDIRECT < k) :
    own ino data (i, k) = 0 := by
  unfold own
  split_ifs with h1 h2
  · rfl
  · omega
  · rfl

theorem own_beyond {k : Nat} (hk : NDIRECT+1+NINDIRECT ≤ k) : own ino data (i, k) = 0 := by
  unfold own
  split_ifs with h1 h2
  · rfl
  · omega
  · rfl
  · omega
  · rfl

/-- The places of an inode depend on the inode and on its indirect block. -/
theorem own_congr {ino' : Nat → Dinode} {data' : Nat → Bytes} {j : Nat} (hi : ino' j = ino j)
    (hd : (ino j).type ≠ 0 → (ino j).indirect ≠ 0 →
      data' (ino j).indirect = data (ino j).indirect) (k : Nat) :
    own ino' data' (j, k) = own ino data (j, k) := by
  unfold own
  simp only [hi]
  split_ifs with h1 h2 h3 h4
  · rfl
  · rfl
  · rfl
  · rw [hd h1 h3]
  · rfl

theorem own_of_ne {d : Dinode} {j : Nat} (hj : j ≠ i) (k : Nat) :
    own (update ino i d) data (j, k) = own ino data (j, k) :=
  own_congr (update_of_ne hj _ _) (fun _ _ => rfl) k

/-- The places of an inode depend on its type and its addresses only. -/
theorem own_withFields {d : Dinode} (hty : d.type = (ino i).type)
    (haddrs : d.addrs = (ino i).addrs) : own (update ino i d) data = own ino data := by
  funext ⟨j, m⟩
  by_cases hj : j = i
  · subst hj
    unfold own Dinode.indirect
    rw [update_self, hty, haddrs]
  · exact own_of_ne hj m

theorem own_empty (h : ∀ k, (ino i).addrs k = 0) (k : Nat) : own ino data (i, k) = 0 := by
  have hind : (ino i).indirect = 0 := by
    unfold Dinode.indirect
    rw [h]
    rfl
  by_cases hk : k < NDIRECT+1
  · by_cases hty : (ino i).type = 0
    · exact own_free hty k
    · have haddr := own_addr data hty ⟨k, hk⟩
      rw [h] at haddr
      exact haddr
  · exact own_entry_none hind (by omega)

/-- An inode without blocks becomes another one without blocks. -/
theorem own_blank {d : Dinode} (hold : ∀ k, own ino data (i, k) = 0)
    (hnew : d.type = 0 ∨ ∀ k, d.addrs k = 0) : own (update ino i d) data = own ino data := by
  funext ⟨j, k⟩
  by_cases hj : j = i
  · rw [hj, hold]
    rcases hnew with hty | haddrs
    · apply own_free
      rw [update_self]
      exact hty
    · apply own_empty
      rw [update_self]
      exact haddrs
  · exact own_of_ne hj k

end Own

section Changes
variable {ino : Nat → Dinode} {data : Nat → Bytes} {used : Nat → Bool} {area : Nat → Prop}
  {i b : Nat}

theorem Owns.indirect_ne (h : Owns (own ino data) used area) {j : Nat} {p : Place}
    (hj : (ino j).type ≠ 0) (hind : (ino j).indirect ≠ 0) (hp : p ≠ (j, NDIRECT)) :
    (ino j).indirect ≠ own ino data p := by
  intro heq
  have hown := own_indirect data hj
  apply hp
  refine (h.inj (j, NDIRECT) p ?_ ?_).symm
  · rw [hown]
    exact hind
  · rw [hown, heq]

theorem own_setAddr (hty : (ino i).type ≠ 0) (k : Fin (NDIRECT+1))
    (hold : own ino data (i, k) = 0) (hnew : ∀ p, own ino data p ≠ b) (hb : b < 2^32) :
    own (update ino i ((ino i).setAddr k b)) (update data b fun _ => 0) =
      update (own ino data) (i, k.val) b := by
  funext ⟨j, m⟩
  have hind (j : Nat) (hj : (ino j).type ≠ 0) : (ino j).indirect ≠ b := by
    intro heq
    exact hnew (j, NDIRECT) ((own_indirect data hj).trans heq)
  by_cases hji : j = i
  · subst hji
    set ino' := update ino j ((ino j).setAddr k b) with hino'
    have hself : ino' j = (ino j).setAddr k b := update_self ..
    have hty' : (ino' j).type ≠ 0 := by rw [hself]; exact hty
    by_cases hm : m < NDIRECT+1
    · have h1 := own_addr (update data b fun _ => 0) hty' ⟨m, hm⟩
      have h2 := own_addr data hty ⟨m, hm⟩
      rw [hself] at h1
      by_cases hmk : (⟨m, hm⟩ : Fin (NDIRECT+1)) = k
      · subst hmk
        rw [h1, setAddr_addrs_self _ _ _ hb, update_self]
      · have hne : (j, m) ≠ (j, k.val) := by
          intro heq
          exact hmk (Fin.ext (Prod.ext_iff.mp heq).2)
        rw [h1, setAddr_addrs_of_ne _ _ _ hmk, update_of_ne hne]
        exact h2.symm
    · have hne : (j, m) ≠ (j, k.val) := by
        intro heq
        have := (Prod.ext_iff.mp heq).2
        have := k.isLt
        dsimp only at *
        omega
      rw [update_of_ne hne]
      by_cases hk : k = Fin.last NDIRECT
      · -- The new block is the indirect block, and there was none.
        subst hk
        have hnone : (ino j).indirect = 0 := (own_indirect data hty).symm.trans hold
        have hind' : (ino' j).indirect = b := by
          rw [hself]
          exact setAddr_addrs_self _ _ _ hb
        rw [own_entry_none hnone (by omega)]
        unfold own
        simp [hm, hind', leGet]
      · have hind' : (ino' j).indirect = (ino j).indirect := by
          rw [hself, setAddr_indirect_of_ne _ _ _ hk]
        unfold own
        rw [if_neg hty', if_neg hty, dif_neg hm, dif_neg hm, hind', update_of_ne (hind j hty)]
  · have hne : (j, m) ≠ (i, k.val) := by
      intro heq
      exact hji (Prod.ext_iff.mp heq).1
    rw [update_of_ne hne]
    apply own_congr
    · exact update_of_ne hji _ _
    · intro hj _
      exact update_of_ne (hind j hj) _ _

theorem own_setEntry (h : Owns (own ino data) used area) (hty : (ino i).type ≠ 0)
    (hind : (ino i).indirect ≠ 0) {e : Nat} (he : e < NINDIRECT) (hb : b < 2^32) :
    own ino (update data (ino i).indirect
        (leSet 4 (data (ino i).indirect) (4*e) b)) =
      update (own ino data) (i, NDIRECT+1+e) b := by
  funext ⟨j, m⟩
  by_cases hji : j = i
  · subst hji
    by_cases hm : m = NDIRECT+1+e
    · subst hm
      rw [own_entry hty hind he, update_self, update_self, leGet_leSet_same]
      exact Nat.mod_eq_of_lt hb
    · have hne : (j, m) ≠ (j, NDIRECT+1+e) := fun heq => hm (Prod.ext_iff.mp heq).2
      rw [update_of_ne hne]
      unfold own
      rw [update_self]
      split_ifs with _ h1
      · rfl
      · rfl
      · dsimp only at h1 ⊢
        rw [leGet_leSet_of_disjoint _ _ _ _ _ _ (by omega)]
      · rfl
  · have hne : (j, m) ≠ (i, NDIRECT+1+e) := by
      intro heq
      exact hji (Prod.ext_iff.mp heq).1
    rw [update_of_ne hne]
    apply own_congr rfl
    intro hj hindj
    apply update_of_ne
    rw [← own_indirect data hty]
    apply h.indirect_ne hj hindj
    intro heq
    exact hji (Prod.ext_iff.mp heq).1.symm

theorem own_setContent (h : Owns (own ino data) used area) {bn : Nat} {bytes : Bytes} :
    own ino (update data (own ino data (i, blockPlace bn)) bytes) = own ino data := by
  funext ⟨j, m⟩
  apply own_congr rfl
  intro hj hind
  apply update_of_ne
  apply h.indirect_ne hj hind
  intro heq
  exact blockPlace_ne bn (Prod.ext_iff.mp heq).2

end Changes

end Xv6
