import Xv6.SchedSafety

/-! The tree of processes, and the books about exit statuses: what each kind of step does
to them, without regard to the places of the threads. -/
namespace Xv6.Sched

open Function

variable {κ : Type} {n : Nat} {s s' s'' : State κ} {p q r i : Nat} {x y z : Slot} {l : Pc}

section Kept

/-- Two contents of a slot that are alike in the books. -/
structure Alike (x y : Slot) : Prop where
  pid : y.pid = x.pid
  xstate : y.xstate = x.xstate
  unused : y.state = .UNUSED ↔ x.state = .UNUSED
  zombie : y.state = .ZOMBIE ↔ x.state = .ZOMBIE

/-- Two contents of a slot that are alike as members of the tree. -/
structure Same (x y : Slot) : Prop extends Alike x y where
  parent : y.parent = x.parent

theorem Same.refl (x : Slot) : Same x x := ⟨⟨rfl, rfl, Iff.rfl, Iff.rfl⟩, rfl⟩

theorem Woken.same {o : Op κ} (h : Woken o x y) : Same x y := by
  refine ⟨⟨h.pid, h.xstate, ?_, ?_⟩, h.parent⟩ <;>
  · rcases h.state with heq | ⟨h1, h2⟩
    · rw [heq]
    · rw [h1, h2]
      exact ⟨nofun, nofun⟩

/-- A process that can run changes its state to another such state. -/
theorem Same.live (hx : x.state ≠ .UNUSED ∧ x.state ≠ .ZOMBIE)
    (hy : y.state ≠ .UNUSED ∧ y.state ≠ .ZOMBIE) (hparent : y.parent = x.parent)
    (hpid : y.pid = x.pid) (hxstate : y.xstate = x.xstate) : Same x y :=
  ⟨⟨hpid, hxstate, ⟨fun h => absurd h hy.1, fun h => absurd h hx.1⟩,
    ⟨fun h => absurd h hy.2, fun h => absurd h hx.2⟩⟩, hparent⟩

/-- A step that leaves the tree and the records as they are. -/
structure Kept (s s' : State κ) : Prop where
  same : ∀ r, Same (s.proc r) (s'.proc r)
  books : s'.books = s.books

theorem Kept.initproc (hk : Kept s s') : s'.initproc = s.initproc := congrArg Prod.fst hk.books

theorem Kept.of_slot (hx : Same (s.proc q) x) (hproc : s'.proc = update s.proc q x)
    (hbooks : s'.books = s.books) : Kept s s' := by
  refine ⟨?_, hbooks⟩
  rw [hproc, forall_update_iff s.proc fun r y => Same (s.proc r) y]
  exact ⟨hx, fun r _ => Same.refl _⟩

end Kept

section Tree

def Slot.alive (x : Slot) : Prop := x.state ≠ .UNUSED ∧ x.state ≠ .ZOMBIE

/-- Slot `r` with the content `x` as a member of the tree. -/
structure Member (n : Nat) (s : State κ) (r : Nat) (x : Slot) : Prop where
  parent : ∀ q, x.parent = some q → (s.proc q).alive
  orphan : x.state ≠ .UNUSED → s.initproc ≠ some r → x.parent ≠ none
  unused : x.state = .UNUSED → x.parent = none
  init : s.initproc = some r → x.alive ∧ x.parent = none
  boot : s.initproc = none → x.state = .UNUSED
  bound : x.state ≠ .UNUSED → r < n

def Tree (n : Nat) (s : State κ) : Prop := ∀ r, Member n s r (s.proc r)

theorem Alike.alive (h : Alike x y) : y.alive ↔ x.alive := by
  unfold Slot.alive
  rw [ne_eq, ne_eq, h.unused, h.zombie]

theorem Member.same (h : Member n s r x) (hxy : Same x y) (hinit : s'.initproc = s.initproc)
    (halive : ∀ q, x.parent = some q → (s'.proc q).alive) : Member n s' r y := by
  refine ⟨?_, ?_, ?_, ?_, ?_, ?_⟩
  · rw [hxy.parent]
    exact halive
  · rw [ne_eq, hxy.unused, hinit, hxy.parent]
    exact h.orphan
  · rw [hxy.unused, hxy.parent]
    exact h.unused
  · rw [hinit, hxy.alive, hxy.parent]
    exact h.init
  · rw [hinit, hxy.unused]
    exact h.boot
  · rw [ne_eq, hxy.unused]
    exact h.bound

theorem Tree.kept (h : Tree n s) (hk : Kept s s') : Tree n s' := by
  intro r
  apply (h r).same (hk.same r) hk.initproc
  intro q hq
  rw [(hk.same q).alive]
  exact (h r).parent q hq

/-- One slot changes, and who is a parent stays alive. -/
theorem Tree.slot (h : Tree n s) (hproc : s'.proc = update s.proc q x)
    (hinit : s'.initproc = s.initproc)
    (halive : ∀ r u, r ≠ q → (s.proc r).parent = some u → (s'.proc u).alive)
    (hx : Member n s' q x) : Tree n s' := by
  intro r
  by_cases hr : r = q
  · rw [hr, hproc, update_self]
    exact hx
  · rw [hproc, update_of_ne hr]
    exact (h r).same (Same.refl _) hinit fun u => halive r u hr

theorem Tree.init_ne (h : Tree n s) (hq : ¬ (s.proc q).alive) : s.initproc ≠ some q :=
  fun hi => hq ((h q).init hi).1

theorem Tree.forked (h : Tree n s) (hold : (s.proc q).state = .UNUSED) (hq : q < n)
    (hx : x.alive) (hproc : s'.proc = update s.proc q x) (hp : (s.proc p).alive)
    (hpar : x.parent = some p) (hinit : s'.initproc = s.initproc) : Tree n s' := by
  have hnot : ¬ (s.proc q).alive := fun ha => ha.1 hold
  have hlive (r : Nat) (hr : (s.proc r).alive) : (s'.proc r).alive := by
    have hrq : r ≠ q := fun heq => hnot (heq ▸ hr)
    rw [hproc, update_of_ne hrq]
    exact hr
  apply h.slot hproc hinit fun r u _ hu => hlive u ((h r).parent u hu)
  refine ⟨?_, ?_, ?_, ?_, ?_, fun _ => hq⟩
  · intro u hu
    rw [hpar] at hu
    cases hu
    exact hlive p hp
  · rw [hpar]
    exact fun _ _ => nofun
  · exact fun hs => absurd hs hx.1
  · rw [hinit]
    exact fun hi => absurd hi (h.init_ne hnot)
  · rw [hinit]
    exact fun hi => absurd ((h p).boot hi) hp.1

theorem Tree.booted (h : Tree n s) (hnone : s.initproc = none) (hq : q < n)
    (hx : x.alive ∧ x.parent = none) (hproc : s'.proc = update s.proc q x)
    (hinit : s'.initproc = some q) : Tree n s' := by
  have hsome : s'.initproc ≠ none := by
    rw [hinit]
    exact nofun
  intro r
  rw [hproc]
  by_cases hr : r = q
  · rw [hr, update_self]
    exact ⟨fun u hu => absurd (hx.2.symm.trans hu) nofun, fun _ hi => absurd hinit hi,
      fun hs => absurd hs hx.1.1, fun _ => hx, fun hi => absurd hi hsome, fun _ => hq⟩
  · have hold := (h r).boot hnone
    have hpar := (h r).unused hold
    rw [update_of_ne hr]
    refine ⟨fun u hu => absurd (hpar.symm.trans hu) nofun, fun hs => absurd hold hs, fun _ => hpar,
      ?_, fun _ => hold, fun hs => absurd hold hs⟩
    rw [hinit]
    exact fun hi => absurd (Option.some.inj hi).symm hr

theorem Tree.freed (h : Tree n s) (hold : ¬ (s.proc q).alive)
    (hx : x.state = .UNUSED ∧ x.parent = none)
    (hproc : s'.proc = update s.proc q x) (hinit : s'.initproc = s.initproc) :
    Tree n s' := by
  refine h.slot hproc hinit ?_ ⟨?_, ?_, fun _ => hx.2, ?_, fun _ => hx.1, ?_⟩
  · intro r u _ hu
    have hal := (h r).parent u hu
    have huq : u ≠ q := fun heq => hold (heq ▸ hal)
    rw [hproc, update_of_ne huq]
    exact hal
  · exact fun u hu => absurd (hx.2.symm.trans hu) nofun
  · exact fun hs => absurd hx.1 hs
  · rw [hinit]
    exact fun hi => absurd hi (h.init_ne hold)
  · exact fun hs => absurd hx.1 hs

theorem Tree.zombie (h : Tree n s) (hold : (s.proc q).alive) (hinit : s.initproc ≠ some q)
    (hnone : ∀ r, (s.proc r).parent ≠ some q) (hx : x.state = .ZOMBIE)
    (hparent : x.parent = (s.proc q).parent) (hproc : s'.proc = update s.proc q x)
    (hinit' : s'.initproc = s.initproc) : Tree n s' := by
  have halive (r u : Nat) (hu : (s.proc r).parent = some u) : (s'.proc u).alive := by
    have huq : u ≠ q := fun heq => hnone r (heq ▸ hu)
    rw [hproc, update_of_ne huq]
    exact (h r).parent u hu
  have hused : x.state ≠ .UNUSED := by
    rw [hx]
    exact nofun
  refine h.slot hproc hinit' (fun r u _ => halive r u) ⟨?_, ?_, ?_, ?_, ?_, fun _ => (h q).bound hold.1⟩
  · rw [hparent]
    exact halive q
  · rw [hparent, hinit']
    exact fun _ => (h q).orphan hold.1
  · exact fun hs => absurd hs hused
  · rw [hinit']
    exact fun hi => absurd hi hinit
  · rw [hinit']
    exact fun hi => absurd ((h q).boot hi) hold.1

theorem Tree.adopted (h : Tree n s) (hq : (s.proc q).parent = some p)
    (hx : x = { s.proc q with parent := s.initproc })
    (hproc : s'.proc = update s.proc q x) (hinit' : s'.initproc = s.initproc) :
    Tree n s' := by
  have halive (r : Nat) (hr : (s.proc r).alive) : (s'.proc r).alive := by
    rw [hproc]
    by_cases hrq : r = q
    · rw [hrq, update_self, hx]
      exact hrq ▸ hr
    · rw [update_of_ne hrq]
      exact hr
  have hboot : s.initproc ≠ none := fun hi => absurd ((h p).boot hi) ((h q).parent p hq).1
  have hused : (s.proc q).state ≠ .UNUSED := by
    intro hs
    rw [(h q).unused hs] at hq
    cases hq
  refine h.slot hproc hinit' (fun r u _ hu => halive u ((h r).parent u hu)) ?_
  rw [hx]
  refine ⟨fun u hu => halive u ((h u).init hu).1, fun _ _ => hboot, fun hs => absurd hs hused, ?_, ?_,
    fun _ => (h q).bound hused⟩
  · rw [hinit']
    intro hi
    have hpar := ((h q).init hi).2
    rw [hq] at hpar
    cases hpar
  · rw [hinit']
    exact fun hi => absurd hi hboot

end Tree

section Records

/-- What the books about exit statuses say of the process in a slot, which is known by the
number `b` of its creation. -/
structure Entry (s : State κ) (x : Slot) (b : Nat) : Prop where
  live : x.state ≠ .UNUSED → b ≤ s.created ∧ x.pid = (BitVec.ofNat 32 b).toInt ∧
    b ∉ s.reaped.map Exit.serial
  unexited : x.alive → b ∉ s.exited.map Exit.serial
  zombie : x.state = .ZOMBIE → ⟨b, x.pid, x.xstate⟩ ∈ s.exited

/-- The books are right about every slot, and name each process once. -/
structure Records (s : State κ) : Prop where
  next : s.nextpid = BitVec.ofNat 32 (s.created + 1)
  entry : ∀ r, Entry s (s.proc r) (s.born r)
  distinct : ∀ r q, (s.proc r).state ≠ .UNUSED → (s.proc q).state ≠ .UNUSED →
    s.born r = s.born q → r = q
  exited : (s.exited.map Exit.serial).Nodup
  reaped : (s.reaped.map Exit.serial).Nodup
  sub : s.reaped ⊆ s.exited
  pids : ∀ e ∈ s.exited, e.serial ≤ s.created ∧ e.pid = (BitVec.ofNat 32 e.serial).toInt

theorem Entry.empty {b : Nat} (hx : x.state = .UNUSED) : Entry s x b := by
  refine ⟨fun h => absurd hx h, fun h => absurd hx h.1, fun h => ?_⟩
  rw [hx] at h
  cases h

/-- The books go on: one process exits, or the result of one is collected. -/
structure Goes (s s' : State κ) (le lr : Option Exit) : Prop where
  next : s'.nextpid = BitVec.ofNat 32 (s'.created + 1)
  created : s.created ≤ s'.created
  exited : s'.exited = s.exited ++ le.toList
  reaped : s'.reaped = s.reaped ++ lr.toList

variable {le lr : Option Exit}

theorem not_mem_serials {l : List Exit} {e : Option Exit} {b : Nat} (hl : b ∉ l.map Exit.serial)
    (he : ∀ u ∈ e, u.serial ≠ b) : b ∉ (l ++ e.toList).map Exit.serial := by
  intro hm
  rw [List.map_append, List.mem_append, List.mem_map, List.mem_map] at hm
  rcases hm with hm | ⟨u, hu, hb⟩
  · exact hl (List.mem_map.mpr hm)
  · exact he u (Option.mem_toList.mp hu) hb

theorem nodup_serials {l : List Exit} {e : Option Exit} (hl : (l.map Exit.serial).Nodup)
    (he : ∀ u ∈ e, u.serial ∉ l.map Exit.serial) : ((l ++ e.toList).map Exit.serial).Nodup := by
  cases e with
  | none => simpa using hl
  | some u =>
    rw [List.map_append]
    refine List.nodup_append.mpr ⟨hl, List.nodup_singleton _, ?_⟩
    intro a ha b hb heq
    obtain rfl : b = u.serial := List.mem_singleton.mp hb
    exact he u rfl (heq ▸ ha)

theorem Entry.later {b : Nat} (h : Entry s x b) (hxy : Alike x y) (hg : Goes s s' le lr)
    (hle : x.state ≠ .UNUSED → ∀ u ∈ le, u.serial ≠ b)
    (hlr : x.state ≠ .UNUSED → ∀ u ∈ lr, u.serial ≠ b) : Entry s' y b := by
  refine ⟨?_, ?_, ?_⟩
  · rw [ne_eq, hxy.unused, hxy.pid, hg.reaped]
    intro hx
    obtain ⟨h1, h2, h3⟩ := h.live hx
    exact ⟨h1.trans hg.created, h2, not_mem_serials h3 (hlr hx)⟩
  · rw [hxy.alive, hg.exited]
    exact fun hx => not_mem_serials (h.unexited hx) (hle hx.1)
  · rw [hxy.zombie, hxy.pid, hxy.xstate, hg.exited]
    exact fun hx => List.mem_append_left _ (h.zombie hx)

/-- Slot `q` changes. Who exits or is collected is the process that was in it, and who is
in it afterwards is that process or a new one. -/
theorem Records.change (h : Records s) (q : Nat) (hg : Goes s s' le lr)
    (hother : ∀ r, r ≠ q → s'.born r = s.born r ∧ Alike (s.proc r) (s'.proc r))
    (hle : ∀ u ∈ le, (s.proc q).alive ∧ u.serial = s.born q ∧ u.pid = (s.proc q).pid)
    (hlr : ∀ u ∈ lr, (s.proc q).state = .ZOMBIE ∧ u = ⟨s.born q, (s.proc q).pid, (s.proc q).xstate⟩)
    (hnew : Entry s' (s'.proc q) (s'.born q))
    (hborn : (s'.proc q).state ≠ .UNUSED →
      (s.proc q).state ≠ .UNUSED ∧ s'.born q = s.born q ∨ s.created < s'.born q) : Records s' := by
  have hzombie (hz : (s.proc q).state = .ZOMBIE) : (s.proc q).state ≠ .UNUSED := by
    rw [hz]
    exact nofun
  have hused (r : Nat) (hr : r ≠ q) (hs : (s'.proc r).state ≠ .UNUSED) :
      (s.proc r).state ≠ .UNUSED := mt (hother r hr).2.unused.mpr hs
  have hne (r : Nat) (hr : r ≠ q) (hs : (s.proc r).state ≠ .UNUSED)
      (hq : (s.proc q).state ≠ .UNUSED) : s.born q ≠ s.born r :=
    fun heq => hr (h.distinct q r hq hs heq).symm
  have hapart (r : Nat) (hr : r ≠ q) (hs : (s'.proc r).state ≠ .UNUSED)
      (hq : (s'.proc q).state ≠ .UNUSED) : s'.born q ≠ s'.born r := by
    have hs := hused r hr hs
    rw [(hother r hr).1]
    rcases hborn hq with ⟨hold, heq⟩ | hlt
    · rw [heq]
      exact hne r hr hs hold
    · have := ((h.entry r).live hs).1
      omega
  refine ⟨hg.next, ?_, ?_, ?_, ?_, ?_, ?_⟩
  · intro r
    by_cases hr : r = q
    · rw [hr]
      exact hnew
    · rw [(hother r hr).1]
      refine (h.entry r).later (hother r hr).2 hg ?_ ?_
      · intro hs u hu
        rw [(hle u hu).2.1]
        exact hne r hr hs (hle u hu).1.1
      · intro hs u hu
        rw [(hlr u hu).2]
        exact hne r hr hs (hzombie (hlr u hu).1)
  · intro r u hr hu heq
    by_cases hrq : r = q
    · by_cases huq : u = q
      · rw [hrq, huq]
      · rw [hrq] at hr heq
        exact absurd heq (hapart u huq hu hr)
    · by_cases huq : u = q
      · rw [huq] at hu heq
        exact absurd heq.symm (hapart r hrq hr hu)
      · rw [(hother r hrq).1, (hother u huq).1] at heq
        exact h.distinct r u (hused r hrq hr) (hused u huq hu) heq
  · rw [hg.exited]
    refine nodup_serials h.exited fun u hu => ?_
    rw [(hle u hu).2.1]
    exact (h.entry q).unexited (hle u hu).1
  · rw [hg.reaped]
    refine nodup_serials h.reaped fun u hu => ?_
    rw [(hlr u hu).2]
    exact ((h.entry q).live (hzombie (hlr u hu).1)).2.2
  · rw [hg.reaped, hg.exited]
    refine List.append_subset.mpr ⟨fun u hu => List.mem_append_left _ (h.sub hu), fun u hu => ?_⟩
    obtain ⟨hz, rfl⟩ := hlr u (Option.mem_toList.mp hu)
    exact List.mem_append_left _ ((h.entry q).zombie hz)
  · rw [hg.exited]
    intro u hu
    rcases List.mem_append.mp hu with hu | hu
    · exact ⟨(h.pids u hu).1.trans hg.created, (h.pids u hu).2⟩
    · obtain ⟨hal, hb, hp⟩ := hle u (Option.mem_toList.mp hu)
      obtain ⟨h1, h2, _⟩ := (h.entry q).live hal.1
      rw [hb, hp]
      exact ⟨h1.trans hg.created, h2⟩

theorem Records.alike (h : Records s) (hsame : ∀ r, Alike (s.proc r) (s'.proc r))
    (hbooks : s'.books = s.books) : Records s' := by
  simp only [State.books, Prod.mk.injEq] at hbooks
  obtain ⟨_, hnext, hcreated, hborn, hexited, hreaped⟩ := hbooks
  have hg : Goes s s' none none :=
    ⟨by rw [hnext, hcreated]; exact h.next, hcreated.ge, by simp [hexited], by simp [hreaped]⟩
  apply h.change 0 hg (fun r _ => ⟨congrFun hborn r, hsame r⟩) nofun nofun
  · rw [hborn]
    exact (h.entry 0).later (hsame 0) hg (fun _ => nofun) fun _ => nofun
  · exact fun hs => Or.inl ⟨mt (hsame 0).unused.mpr hs, congrFun hborn 0⟩

theorem Records.kept (h : Records s) (hk : Kept s s') : Records s' :=
  h.alike (fun r => (hk.same r).toAlike) hk.books

theorem Records.emptied (h : Records s) (hx : x.state = .UNUSED) (hg : Goes s s' none lr)
    (hproc : s'.proc = update s.proc q x) (hborn : ∀ r, r ≠ q → s'.born r = s.born r)
    (hlr : ∀ u ∈ lr, (s.proc q).state = .ZOMBIE ∧
      u = ⟨s.born q, (s.proc q).pid, (s.proc q).xstate⟩) : Records s' := by
  obtain ⟨hself, hother⟩ := updated hproc
  apply h.change q hg ?_ nofun hlr
  · rw [hself]
    exact Entry.empty hx
  · rw [hself]
    exact fun hs => absurd hx hs
  · intro r hr
    rw [hother r hr]
    exact ⟨hborn r hr, (Same.refl _).toAlike⟩

theorem Records.goes (h : Records s) (hnext : s'.nextpid = s.nextpid + 1)
    (hcreated : s'.created = s.created + 1) (hexited : s'.exited = s.exited)
    (hreaped : s'.reaped = s.reaped) : Goes s s' none none := by
  refine ⟨?_, by omega, by simp [hexited], by simp [hreaped]⟩
  rw [hnext, hcreated, h.next]
  exact (BitVec.ofNat_add (s.created + 1) 1).symm

theorem Records.fresh (h : Records s) (hx : x.alive) (hpid : x.pid = s.nextpid.toInt)
    (hproc : s'.proc = update s.proc q x) (hborn : s'.born = update s.born q (s.created + 1))
    (hg : Goes s s' none none) (hcreated : s'.created = s.created + 1) : Records s' := by
  obtain ⟨hself, hother⟩ := updated hproc
  have hb : s'.born q = s.created + 1 := by
    rw [hborn, update_self]
  have hnew : s.created + 1 ∉ s.exited.map Exit.serial := by
    intro hm
    obtain ⟨e, he, heq⟩ := List.mem_map.mp hm
    have := (h.pids e he).1
    omega
  have hreaped := hg.reaped
  have hexited := hg.exited
  simp only [Option.toList_none, List.append_nil] at hreaped hexited
  apply h.change q hg ?_ nofun nofun
  · rw [hself, hb]
    refine ⟨fun _ => ⟨hcreated.ge, by rw [hpid, h.next], ?_⟩, fun _ => ?_, fun hz => absurd hz hx.2⟩
    · rw [hreaped]
      exact fun hm => hnew (List.map_subset _ h.sub hm)
    · rw [hexited]
      exact hnew
  · exact fun _ => Or.inr (by omega)
  · intro r hr
    rw [hother r hr, hborn, update_of_ne hr]
    exact ⟨rfl, (Same.refl _).toAlike⟩

theorem Records.exit (h : Records s) (hold : (s.proc q).alive) {status : Int}
    (hx : x = { s.proc q with xstate := status, state := .ZOMBIE })
    (hproc : s'.proc = update s.proc q x) (hborn : s'.born = s.born)
    (hg : Goes s s' (some ⟨s.born q, (s.proc q).pid, status⟩) none) : Records s' := by
  obtain ⟨hself, hother⟩ := updated hproc
  have hreaped := hg.reaped
  simp only [Option.toList_none, List.append_nil] at hreaped
  apply h.change q hg ?_ ?_ nofun
  · rw [hself, hborn, hx]
    obtain ⟨h1, h2, h3⟩ := (h.entry q).live hold.1
    refine ⟨fun _ => ⟨h1.trans hg.created, h2, by rw [hreaped]; exact h3⟩, fun ha => absurd rfl ha.2, ?_⟩
    rw [hg.exited]
    exact fun _ => List.mem_append_right _ (List.mem_singleton_self _)
  · exact fun _ => Or.inl ⟨hold.1, congrFun hborn q⟩
  · intro r hr
    rw [hother r hr]
    exact ⟨congrFun hborn r, (Same.refl _).toAlike⟩
  · intro u hu
    cases hu
    exact ⟨hold, rfl, rfl⟩

theorem Records.pids_nodup (h : Records s) (hc : s.created < 2^31) :
    (s.reaped.map Exit.pid).Nodup := by
  have hsmall (m : Nat) (hm : m < 2^31) : (BitVec.ofNat 32 m).toInt = m := by
    have hnat : (BitVec.ofNat 32 m).toNat = m := by
      rw [BitVec.toNat_ofNat]
      omega
    rw [BitVec.toInt_eq_toNat_of_lt (by omega), hnat]
  rw [List.nodup_map_iff_inj_on (List.Nodup.of_map _ h.reaped)]
  intro a ha b hb heq
  obtain ⟨ha1, ha2⟩ := h.pids a (h.sub ha)
  obtain ⟨hb1, hb2⟩ := h.pids b (h.sub hb)
  rw [ha2, hb2, hsmall _ (by omega), hsmall _ (by omega)] at heq
  exact (List.nodup_map_iff_inj_on (List.Nodup.of_map _ h.reaped)).mp h.reaped a ha b hb
    (Int.ofNat.inj heq)

end Records

end Xv6.Sched
