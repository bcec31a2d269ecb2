import Xv6.Console
import Xv6.VmCopyin
import Xv6.Pipe
import Xv6.SharedFile

/-! `sys_read` down to the three kinds of files: `piperead`, `consoleread` and `readi`,
with the memory of the process that reads. While it sleeps in a pipe or at the console
the others may change everything but its memory. -/
namespace Xv6

open Function

/-- What a read can see: the files, pipes and the console, `p->killed`, and the memory of
the process. -/
structure World where
  fs : Fs
  pipe : Nat → PipeRing
  cons : Console.Cons
  killed : Bool
  mem : UserMem

section Code

def inFiles {α : Type} (x : Prog Fs α) : Prog World α :=
  zoom World.fs (fun t w => { w with fs := t }) x

def copyoutUser (dstva : Nat) (src : List UInt8) : Prog World Int := do
  let w ← get
  match userCopy (w.mem, dstva) src with
  | .error e => throw e
  | .ok (r, d) =>
    set { w with mem := d.1 }
    pure r

def pipereadLoop (pi addr : Nat) : Nat → Nat → Prog World Nat
  | 0, i => pure i
  | k+1, i => do
    let w ← get
    if (w.pipe pi).empty then pure i else
    set { w with pipe := update w.pipe pi (w.pipe pi).remove }
    let r ← copyoutUser ((addr+i) % 2^64) [(w.pipe pi).next]
    if r = -1 then pure i else pipereadLoop pi addr k (i+1)

/-- `piperead`. Each time the process sleeps it is woken in the next world of the list; at
the end of the list it has not returned. -/
def piperead (pi addr : Nat) (n : Int) : List World → Prog World (Option Int)
  | [] => do
    let w ← get
    if (w.pipe pi).empty ∧ (w.pipe pi).writeopen = true then
      if w.killed then pure (some (-1)) else pure none
    else do
      let i ← pipereadLoop pi addr n.toNat 0
      pure (some i)
  | v :: wakes => do
    let w ← get
    if (w.pipe pi).empty ∧ (w.pipe pi).writeopen = true then
      if w.killed then pure (some (-1)) else do
      set { v with mem := w.mem }
      piperead pi addr n wakes
    else do
      let i ← pipereadLoop pi addr n.toNat 0
      pure (some i)

/-- How the wait for input ends; `ready` has the worlds that are left. -/
inductive ConsoleWait
  | asleep
  | killed
  | ready (wakes : List World)

def consoleWait : List World → Prog World ConsoleWait
  | [] => do
    let w ← get
    if w.cons.r = w.cons.w then
      if w.killed then pure .killed else pure .asleep
    else pure (.ready [])
  | v :: wakes => do
    let w ← get
    if w.cons.r = w.cons.w then
      if w.killed then pure .killed else do
      set { v with mem := w.mem }
      consoleWait wakes
    else pure (.ready (v :: wakes))

def consolereadLoop (target : BitVec 32) : Nat → Nat → List World → Prog World (Option Int)
  | 0, _, _ => pure (some target.toInt)
  | n+1, dst, wakes => do
    match ← consoleWait wakes with
    | .asleep => pure none
    | .killed => pure (some (-1))
    | .ready wakes => do
      let w ← get
      let c := w.cons.at w.cons.r
      let left := BitVec.ofNat 32 (n+1)
      if c = Console.CTRL_D then do
        -- `cons.r--` saves it for the next call.
        if left < target then pure ()
        else set { w with cons := { w.cons with r := w.cons.r+1 } }
        pure (some (target - left).toInt)
      else do
        set { w with cons := { w.cons with r := w.cons.r+1 } }
        let r ← copyoutUser dst [c]
        if r = -1 then pure (some (target - left).toInt)
        else if c = Console.NL then pure (some (target - BitVec.ofNat 32 n).toInt)
        else consolereadLoop target n ((dst+1) % 2^64) wakes

def consoleread (dst : Nat) (n : Int) (wakes : List World) : Prog World (Option Int) :=
  let target := BitVec.ofInt 32 n
  if 0 < n then consolereadLoop target n.toNat dst wakes
  else pure (some (target - BitVec.ofInt 32 n).toInt)

/-- The major number of the console, the one device with a `read` function. -/
def CONSOLE : BitVec 16 := 1

variable [FsLayout]

/-- The branch of `fileread` for inodes. -/
def filereadInode (f : Fin NFILE) (ip : ISlot) (addr : Nat) (n : Int) : Prog World (Option Int) := do
  let w ← get
  let (r, d) ← inFiles (readRound f ip (w.mem, addr) (BitVec.ofInt 32 n).toNat)
  modify fun w => { w with mem := d.1 }
  pure (some (BitVec.ofNat 32 r).toInt)

def fileread (f : Fin NFILE) (addr : Nat) (n : Int) (wakes : List World) :
    Prog World (Option Int) := do
  let w ← get
  let x := w.fs.sys.file f
  if x.readable = false then pure (some (-1)) else
  match x.type with
  | .FD_PIPE => piperead x.pipe addr n wakes
  | .FD_DEVICE =>
    if x.major.toInt < 0 ∨ NDEV ≤ x.major.toInt ∨ x.major ≠ CONSOLE then pure (some (-1))
    else consoleread addr n wakes
  | .FD_INODE => filereadInode f x.ip addr n
  | .FD_NONE => throw "fileread"

def World.ofile (w : World) (p : Fin NPROC) (fd : Int) : Option (Fin NFILE) :=
  if h : 0 ≤ fd ∧ fd < NOFILE then (w.fs.sys.proc p).ofile ⟨fd.toNat, by omega⟩ else none

def sys_read (p : Fin NPROC) (fd : Int) (addr : Nat) (n : Int) (wakes : List World) :
    Prog World (Option Int) := do
  let w ← get
  match w.ofile p fd with
  | none => pure (some (-1))
  | some f => fileread f addr n wakes

end Code

section Memory
variable {m m1 m2 : UserMem} {a n : Nat}

/-- The memory differs at most in the `n` bytes from address `a` on. -/
structure Within (a n : Nat) (m m' : UserMem) : Prop where
  user : m'.user = m.user
  byte : ∀ x, ¬ (a ≤ x ∧ x < a+n) → m'.byte x = m.byte x

theorem Within.refl (a n : Nat) (m : UserMem) : Within a n m m := ⟨rfl, fun _ _ => rfl⟩

theorem Within.trans (h : Within a n m m1) (h' : Within a n m1 m2) : Within a n m m2 :=
  ⟨h'.user.trans h.user, fun x hx => (h'.byte x hx).trans (h.byte x hx)⟩

theorem Within.widen {b k : Nat} (h : Within a n m m1) (hlo : b ≤ a) (hhi : a+n ≤ b+k) :
    Within b k m m1 :=
  ⟨h.user, fun x hx => h.byte x fun hc => hx (by omega)⟩

theorem put_within (va : Nat) (src : List UInt8) (m : UserMem) :
    Within va src.length m (m.put va src) := by
  refine ⟨rfl, fun x hx => ?_⟩
  rw [UserMem.put_byte, if_neg hx]

/-- Nothing changes where the bytes that are stored are there already. -/
theorem put_within_zero {va : Nat} {src : List UInt8} :
    Within va 0 m (m.put va src) ↔ ∀ x, x < src.length → src.getD x 0 = m.byte (va+x) := by
  constructor
  · intro h x hx
    have hbyte := h.byte (va+x) (by omega)
    rwa [UserMem.put_byte, if_pos (by omega), Nat.add_sub_cancel_left] at hbyte
  · intro h
    refine ⟨rfl, fun x _ => ?_⟩
    rw [UserMem.put_byte]
    split_ifs with hx
    · rw [h (x-va) (by omega), Nat.add_sub_cancel' hx.1]
    · rfl

/-- The last page below `MAXVA` is the trampoline, which is not the user's. -/
theorem UserMem.userByte.succ {va : Nat} (htop : m.user (MAXVA/PGSIZE - 1) = false)
    (h : m.userByte va) : va+1 < MAXVA := by
  obtain ⟨hlow, huser⟩ := h
  have hne : va/PGSIZE ≠ MAXVA/PGSIZE - 1 := by
    intro hc
    rw [hc, htop] at huser
    cases huser
  have hM : MAXVA = 274877906944 := rfl
  rw [hM] at hlow hne ⊢
  unfold PGSIZE at hne
  omega

end Memory

section Copies
variable {w : World}

/-- One byte is stored where the process has the page, and nowhere else. -/
theorem copyout_one (m : UserMem) (va : Nat) (b : UInt8) :
    m.copyout va [b] = if m.userByte va then (0, m.put va [b]) else (-1, m) := by
  have hall : (∀ x, x < [b].length → m.userByte (va+x)) ↔ m.userByte va := by simp
  obtain ⟨u, hu, hrun⟩ := copyoutLoop_upto 1 va [b] m le_rfl
  have hfull := hu.all_iff.trans hall
  change m.copyoutLoop 1 va [b] = _
  rw [hrun]
  split_ifs with hin hout hout
  · rw [hin, List.take_length]
  · exact absurd (hfull.mp hin) hout
  · exact absurd (hfull.mpr hout) hin
  · have hle := hu.le
    rw [List.length_singleton] at hle hin
    rw [show u = 0 by omega, List.take_zero, UserMem.put_nil]

theorem runs_copyoutUser {va : Nat} {b : UInt8} {Q : Int → World → Prop} :
    Runs (copyoutUser va [b]) w Q ↔ va < MAXVA ∧
      (w.mem.userByte va → Q 0 { w with mem := w.mem.put va [b] }) ∧ (¬ w.mem.userByte va → Q (-1) w) := by
  unfold copyoutUser userCopy
  rw [runs_bind, runs_get]
  by_cases hva : va < MAXVA
  · rw [if_neg (by simpa using hva), copyout_one]
    dsimp only
    rw [runs_bind, runs_set, runs_pure]
    by_cases h : w.mem.userByte va
    · simp [h, hva]
    · simp [h, hva]
  · rw [if_pos (by simpa using Nat.not_lt.mp hva)]
    simp [hva]

end Copies

section Waits

/-- The world in which a process that sleeps while `waits` holds goes on, sleeps for good, or
finds that it was killed. -/
def lastWoken (waits : World → Prop) [DecidablePred waits] : World → List World → World
  | w, [] => w
  | w, v :: wakes =>
    if waits w ∧ w.killed = false then lastWoken waits { v with mem := w.mem } wakes else w

theorem lastWoken_eq (waits : World → Prop) [DecidablePred waits] (wakes : List World) :
    ∀ w : World, ∃ v ∈ w :: wakes, lastWoken waits w wakes = { v with mem := w.mem } := by
  induction wakes with
  | nil => exact fun w => ⟨w, List.mem_singleton_self w, rfl⟩
  | cons u wakes ih =>
    intro w
    unfold lastWoken
    split_ifs with hw
    · obtain ⟨v, hv, heq⟩ := ih { u with mem := w.mem }
      rcases List.mem_cons.mp hv with rfl | hv
      · exact ⟨u, List.mem_cons_of_mem _ List.mem_cons_self, heq⟩
      · exact ⟨v, List.mem_cons_of_mem _ (List.mem_cons_of_mem _ hv), heq⟩
    · exact ⟨w, List.mem_cons_self, rfl⟩

end Waits

section Pipe

def PipeRing.advance (pi : PipeRing) (c : Nat) : PipeRing :=
  { pi with nread := pi.nread + BitVec.ofNat 32 c }

def PipeRing.front (pi : PipeRing) (c : Nat) : List UInt8 :=
  (List.range c).map fun j => pi.data ((pi.nread + BitVec.ofNat 32 j).toNat % PIPESIZE)

/-- The number of bytes in the pipe. -/
def PipeRing.count (pi : PipeRing) : Nat := (pi.nwrite - pi.nread).toNat

theorem PipeRing.length_front (pi : PipeRing) (c : Nat) : (pi.front c).length = c := by
  rw [PipeRing.front, List.length_map, List.length_range]

theorem add_one_ofNat (x : BitVec 32) (c : Nat) :
    x + 1 + BitVec.ofNat 32 c = x + BitVec.ofNat 32 (c+1) := by
  rw [BitVec.add_assoc, Nat.add_comm c 1, BitVec.ofNat_add]
  rfl

theorem PipeRing.advance_remove (pi : PipeRing) (c : Nat) :
    pi.remove.advance c = pi.advance (c+1) := by
  unfold PipeRing.advance PipeRing.remove
  rw [← add_one_ofNat]

theorem PipeRing.front_succ (pi : PipeRing) (c : Nat) :
    pi.front (c+1) = pi.next :: pi.remove.front c := by
  unfold PipeRing.front PipeRing.next PipeRing.remove
  rw [List.range_succ_eq_map, List.map_cons, List.map_map]
  congr 1
  · simp
  · apply List.map_congr_left
    intro j _
    rw [Function.comp_apply, add_one_ofNat]

theorem PipeRing.advance_zero (pi : PipeRing) : pi.advance 0 = pi := by
  unfold PipeRing.advance
  simp

theorem PipeRing.empty_iff (pi : PipeRing) : pi.empty ↔ pi.count = 0 := by
  unfold PipeRing.empty PipeRing.count
  bv_omega

theorem PipeRing.count_remove {pi : PipeRing} (h : ¬ pi.empty) : pi.remove.count = pi.count - 1 := by
  unfold PipeRing.empty at h
  unfold PipeRing.count PipeRing.remove
  bv_omega

variable {w : World} {pi addr : Nat}

/-- The world after `c` bytes went to `va`, and `c'` were taken off the pipe. -/
def World.taken (w : World) (pi va c c' : Nat) : World :=
  { w with
    pipe := update w.pipe pi ((w.pipe pi).advance c')
    mem := w.mem.put va ((w.pipe pi).front c) }

theorem World.taken_zero (w : World) (pi va : Nat) : w.taken pi va 0 0 = w := by
  unfold World.taken
  rw [PipeRing.advance_zero, update_eq_self]
  exact congrArg (fun m => { w with mem := m }) (UserMem.put_nil w.mem va)

theorem World.taken_pipe (w : World) (pi va c c' : Nat) :
    (w.taken pi va c c').pipe pi = (w.pipe pi).advance c' := update_self ..

theorem World.taken_next (w : World) (pi va c c' : Nat) :
    ({ w with
      pipe := update w.pipe pi (w.pipe pi).remove
      mem := w.mem.put va [(w.pipe pi).next] } : World).taken pi (va+1) c c' =
      w.taken pi va (c+1) (c'+1) := by
  have hput := w.mem.put_append va [(w.pipe pi).next] ((w.pipe pi).remove.front c)
  rw [List.singleton_append, ← PipeRing.front_succ] at hput
  unfold World.taken
  dsimp only
  rw [update_self, update_idem, PipeRing.advance_remove, hput]
  rfl

/-- The loop of `piperead` delivers the bytes that are in the pipe and have a place. -/
theorem runs_pipereadLoop_ahead {Q : Nat → World → Prop} (c : Nat) : ∀ (k i : Nat) (w : World),
    c ≤ k → c ≤ (w.pipe pi).count → (∀ x, x < c → w.mem.userByte (addr+i+x)) →
    (Runs (pipereadLoop pi addr k i) w Q ↔
      Runs (pipereadLoop pi addr (k-c) (i+c)) (w.taken pi (addr+i) c c) Q) := by
  induction c with
  | zero =>
    intro k i w _ _ _
    rw [World.taken_zero, Nat.sub_zero, Nat.add_zero]
  | succ c ih =>
    intro k i w hk hcount hread
    obtain ⟨k, rfl⟩ : ∃ j, k = j+1 := ⟨k-1, by omega⟩
    have hne : ¬ (w.pipe pi).empty := by
      rw [PipeRing.empty_iff]
      omega
    have hfirst := hread 0 (Nat.succ_pos c)
    have hM : MAXVA < 2^64 := by decide
    have hlow := hfirst.1
    have hmod : (addr+i) % 2^64 = addr+i := Nat.mod_eq_of_lt (by omega)
    rw [pipereadLoop, runs_bind, runs_get, if_neg hne, runs_bind, runs_set, runs_bind, hmod,
      runs_copyoutUser]
    have hrest := ih k (i+1) { w with
      pipe := update w.pipe pi (w.pipe pi).remove
      mem := w.mem.put (addr+i) [(w.pipe pi).next] } (by omega)
      (by
        dsimp only
        rw [update_self, PipeRing.count_remove hne]
        omega)
      (by
        intro x hx
        have := hread (x+1) (by omega)
        rwa [show addr+i+(x+1) = addr+(i+1)+x by omega] at this)
    rw [show addr+(i+1) = addr+i+1 by omega, World.taken_next] at hrest
    rw [show k+1-(c+1) = k-c by omega, show i+(c+1) = i+1+c by omega, ← hrest]
    constructor
    · exact fun h => h.2.1 hfirst
    · exact fun h => ⟨hlow, fun _ => h, fun hbad => absurd hfirst hbad⟩

/-- Where all have a place the loop ends with the pipe empty or the count reached. -/
theorem runs_pipereadLoop {Q : Nat → World → Prop} {k : Nat}
    (h : ∀ x, x < min k (w.pipe pi).count → w.mem.userByte (addr+x)) :
    Runs (pipereadLoop pi addr k 0) w Q ↔ Q (min k (w.pipe pi).count)
      (w.taken pi addr (min k (w.pipe pi).count) (min k (w.pipe pi).count)) := by
  set c := min k (w.pipe pi).count with hc
  rw [runs_pipereadLoop_ahead c k 0 w (by omega) (by omega) h, Nat.zero_add]
  by_cases hk : k-c = 0
  · rw [hk, pipereadLoop, runs_pure]
    rfl
  · obtain ⟨j, hj⟩ : ∃ j, k-c = j+1 := ⟨k-c-1, by omega⟩
    have hempty : ((w.taken pi (addr+0) c c).pipe pi).empty := by
      have hall : c = (w.pipe pi).count := by omega
      rw [World.taken_pipe, hall]
      unfold PipeRing.empty PipeRing.advance PipeRing.count
      bv_omega
    rw [hj, pipereadLoop, runs_bind, runs_get, if_pos hempty, runs_pure]
    rfl

/-- It takes one more off the pipe where the copy of that byte fails. -/
theorem runs_pipereadLoop_fail {Q : Nat → World → Prop} {k c : Nat} (haddr : addr < 2^64)
    (hc : c < min k (w.pipe pi).count) (h : ∀ x, x < c → w.mem.userByte (addr+x))
    (hbad : ¬ w.mem.userByte (addr+c)) :
    Runs (pipereadLoop pi addr k 0) w Q ↔ addr+c < MAXVA ∧ Q c (w.taken pi addr c (c+1)) := by
  rw [runs_pipereadLoop_ahead c k 0 w (by omega) (by omega) h, Nat.zero_add, Nat.add_zero]
  obtain ⟨j, hj⟩ : ∃ j, k-c = j+1 := ⟨k-c-1, by omega⟩
  have hne : ¬ ((w.taken pi addr c c).pipe pi).empty := by
    have hlt : c < (w.pipe pi).count := by omega
    rw [World.taken_pipe]
    unfold PipeRing.count at hlt
    unfold PipeRing.empty PipeRing.advance
    bv_omega
  have hmod : (addr+c) % 2^64 = addr+c := by
    have hM : MAXVA < 2^64 := by decide
    have hprev : c = 0 ∨ addr+(c-1) < MAXVA := by
      by_cases hz : c = 0
      · exact Or.inl hz
      · exact Or.inr (h (c-1) (by omega)).1
    exact Nat.mod_eq_of_lt (by omega)
  have hstep : ({ w.taken pi addr c c with
      pipe := update (w.taken pi addr c c).pipe pi ((w.taken pi addr c c).pipe pi).remove } : World) =
      w.taken pi addr c (c+1) := by
    rw [World.taken_pipe]
    unfold World.taken
    dsimp only
    rw [update_idem]
    congr 2
    unfold PipeRing.remove PipeRing.advance
    dsimp only
    congr 1
    bv_omega
  have hbad' : ¬ (w.taken pi addr c (c+1)).mem.userByte (addr+c) := hbad
  rw [hj, pipereadLoop, runs_bind, runs_get, if_neg hne, runs_bind, runs_set, runs_bind, hmod,
    runs_copyoutUser, hstep]
  simp only [hbad', not_false_eq_true, true_implies, false_implies, true_and, if_true, runs_pure]

def World.pipeWaits (pi : Nat) (w : World) : Prop :=
  (w.pipe pi).empty ∧ (w.pipe pi).writeopen = true

instance (pi : Nat) : DecidablePred (World.pipeWaits pi) :=
  fun _ => inferInstanceAs (Decidable (_ ∧ _))

/-- The world in which a `piperead` that starts in `w` was last woken. -/
def World.pipeWoken (w : World) (pi : Nat) (wakes : List World) : World :=
  lastWoken (World.pipeWaits pi) w wakes

theorem World.pipeWoken_eq (w : World) (pi : Nat) (wakes : List World) :
    ∃ v ∈ w :: wakes, w.pipeWoken pi wakes = { v with mem := w.mem } := lastWoken_eq _ wakes w

theorem runs_piperead {n : Int} {Q : Option Int → World → Prop} (wakes : List World) :
    ∀ w : World, Runs (piperead pi addr n wakes) w Q ↔
      ((w.pipeWoken pi wakes).pipeWaits pi →
        Q (if (w.pipeWoken pi wakes).killed then some (-1) else none) (w.pipeWoken pi wakes)) ∧
      (¬ (w.pipeWoken pi wakes).pipeWaits pi →
        Runs (pipereadLoop pi addr n.toNat 0) (w.pipeWoken pi wakes) fun i => Q (some i)) := by
  induction wakes with
  | nil =>
    intro w
    have hself : w.pipeWoken pi [] = w := rfl
    rw [hself, piperead, runs_bind, runs_get, runs_ite]
    refine and_congr (imp_congr_right fun _ => ?_) (by rw [runs_bind]; simp only [runs_pure]; rfl)
    split_ifs <;> exact runs_pure _
  | cons v wakes ih =>
    intro w
    rw [piperead, runs_bind, runs_get, runs_ite]
    by_cases hw : w.pipeWaits pi ∧ w.killed = false
    · have hnext : w.pipeWoken pi (v :: wakes) = ({ v with mem := w.mem } : World).pipeWoken pi wakes :=
        if_pos hw
      rw [hnext, ← ih, if_neg (by simp [hw.2]), runs_bind, runs_set]
      exact ⟨fun h => h.1 hw.1, fun h => ⟨fun _ => h, fun hno => absurd hw.1 hno⟩⟩
    · have hself : w.pipeWoken pi (v :: wakes) = w := if_neg hw
      rw [hself]
      refine and_congr (imp_congr_right fun hwait => ?_) (by rw [runs_bind]; simp only [runs_pure]; rfl)
      have hk : w.killed = true := Bool.not_eq_false _ |>.mp fun hk => hw ⟨hwait, hk⟩
      rw [if_pos hk, if_pos hk]
      exact runs_pure _

/-- What a `piperead` that was last woken in `v` did: what it takes off the pipe is what it
returns, the bytes it delivers are the next ones in the pipe, and with -1, or while the
process sleeps, the pipe is as it was. -/
def ConsumesDelivered (pi addr : Nat) (v : World) (r : Option Int) (w' : World) : Prop :=
  (r = none ∨ r = some (-1)) ∧ w'.pipe pi = v.pipe pi ∧ w'.mem = v.mem ∨
    ∃ c : Nat, r = some (c : Int) ∧ (w'.pipe pi).nread - (v.pipe pi).nread = BitVec.ofNat 32 c ∧
      w'.pipe pi = (v.pipe pi).advance c ∧ w'.mem = v.mem.put addr ((v.pipe pi).front c)

theorem taken_consumes (v : World) (c : Nat) :
    ConsumesDelivered pi addr v (some c) (v.taken pi addr c c) := by
  refine Or.inr ⟨c, rfl, ?_, v.taken_pipe pi addr c c, rfl⟩
  rw [World.taken_pipe]
  unfold PipeRing.advance
  bv_omega

theorem not_taken_consumes (v : World) (c : Nat) :
    ¬ ConsumesDelivered pi addr v (some c) (v.taken pi addr c (c+1)) := by
  rintro (⟨hr | hr, _⟩ | ⟨c', hr, hread, _⟩)
  · cases hr
  · have := Option.some.inj hr
    omega
  · obtain rfl : c = c' := Int.ofNat_inj.mp (Option.some.inj hr)
    rw [World.taken_pipe] at hread
    unfold PipeRing.advance at hread
    bv_omega

/-- `piperead` takes off the pipe what it returns, if and only if the process has the pages
for the bytes that are in the pipe when it is woken, up to the `n` that it asks for. -/
theorem piperead_consumes_delivered (w : World) (pi addr : Nat) (n : Int) (wakes : List World)
    (haddr : addr < 2^64) :
    Runs (piperead pi addr n wakes) w (ConsumesDelivered pi addr (w.pipeWoken pi wakes)) ↔
      ∀ x, x < min n.toNat ((w.pipeWoken pi wakes).pipe pi).count → w.mem.userByte (addr+x) := by
  obtain ⟨u, _, hu⟩ := w.pipeWoken_eq pi wakes
  have hmem : (w.pipeWoken pi wakes).mem = w.mem := by rw [hu]
  set v := w.pipeWoken pi wakes with hv
  rw [runs_piperead, ← hv, ← hmem]
  by_cases hwait : v.pipeWaits pi
  · have hzero := (PipeRing.empty_iff _).mp hwait.1
    refine iff_of_true ⟨fun _ => Or.inl ⟨?_, rfl, rfl⟩, fun hno => absurd hwait hno⟩ ?_
    · split_ifs
      · exact Or.inr rfl
      · exact Or.inl rfl
    · intro x hx
      omega
  · rw [and_iff_right fun h => absurd h hwait, imp_iff_right hwait]
    obtain ⟨c, hc, hread, hstop⟩ := exists_upto v.mem addr (min n.toNat (v.pipe pi).count)
    by_cases hlt : c < min n.toNat (v.pipe pi).count
    · rw [runs_pipereadLoop_fail haddr hlt hread (hstop hlt)]
      exact iff_of_false (fun h => not_taken_consumes v c h.2) fun h => hstop hlt (h c hlt)
    · obtain rfl : c = min n.toNat (v.pipe pi).count := by omega
      rw [runs_pipereadLoop hread]
      exact iff_of_true (taken_consumes v _) hread

def pipeWorld (data : List UInt8) (mem : UserMem) : World where
  fs := @bootFs sampleFs (fun _ _ => 0) noFiles
  pipe _ := ⟨fun i => data.getD i 0, 0, BitVec.ofNat 32 data.length, true, true⟩
  cons := ⟨fun _ => 0, 0, 0, 0⟩
  killed := false
  mem := mem

/-- Three bytes of a pipe that holds two, to the end of the page. -/
theorem piperead_consumes_delivered_two :
    Runs (piperead 0 4094 3 []) (pipeWorld [5, 6] onePage)
      (ConsumesDelivered 0 4094 (pipeWorld [5, 6] onePage)) :=
  (piperead_consumes_delivered (pipeWorld [5, 6] onePage) 0 4094 3 [] (by decide)).mpr (by decide)

/-- A read of one byte to an address that is not mapped returns 0, and the byte is gone. -/
theorem piperead_loses_byte :
    (piperead 0 4096 1 [] (pipeWorld [5] onePage)).map
      (fun r => (r.1, (r.2.pipe 0).nread, (r.2.pipe 0).nwrite)) = .ok (some 0, 1, 1) := by
  decide +kernel

end Pipe

section Console

def World.consWaits (w : World) : Prop := w.cons.r = w.cons.w

instance : DecidablePred World.consWaits := fun _ => inferInstanceAs (Decidable (_ = _))

/-- There is a character at the console, and it does not end the read. -/
def World.consOffers (w : World) (wakes : List World) : Prop :=
  ¬ (lastWoken World.consWaits w wakes).consWaits ∧
    (lastWoken World.consWaits w wakes).cons.at (lastWoken World.consWaits w wakes).cons.r ≠
      Console.CTRL_D

theorem consoleWait_spec (wakes : List World) : ∀ w : World,
    Runs (consoleWait wakes) w fun r w' => w' = lastWoken World.consWaits w wakes ∧
      if w'.consWaits then r = .killed ∨ r = .asleep else ∃ rest ⊆ wakes, r = .ready rest := by
  induction wakes with
  | nil =>
    intro w
    rw [consoleWait, runs_bind, runs_get, runs_ite]
    refine ⟨fun hw => ?_, fun hw => ?_⟩
    · rw [runs_ite, runs_pure, runs_pure]
      exact ⟨fun _ => ⟨rfl, (if_pos hw).mpr (Or.inl rfl)⟩, fun _ => ⟨rfl, (if_pos hw).mpr (Or.inr rfl)⟩⟩
    · rw [runs_pure]
      exact ⟨rfl, (if_neg hw).mpr ⟨[], List.Subset.refl _, rfl⟩⟩
  | cons v wakes ih =>
    intro w
    rw [consoleWait, runs_bind, runs_get, runs_ite]
    refine ⟨fun hw => ?_, fun hw => ?_⟩
    · rw [runs_ite, runs_pure, runs_bind, runs_set]
      refine ⟨fun hk => ?_, fun hk => ?_⟩
      · have hself : lastWoken World.consWaits w (v :: wakes) = w := if_neg (by simp [hk])
        exact ⟨hself.symm, (if_pos hw).mpr (Or.inl rfl)⟩
      · have hnext : lastWoken World.consWaits w (v :: wakes) =
            lastWoken World.consWaits { v with mem := w.mem } wakes := if_pos ⟨hw, by simpa using hk⟩
        rw [hnext]
        apply (ih _).imp
        intro r w' ⟨hw', hr⟩
        refine ⟨hw', ?_⟩
        split_ifs at hr ⊢
        · exact hr
        · obtain ⟨rest, hsub, hr⟩ := hr
          exact ⟨rest, List.Subset.trans hsub (List.subset_cons_self v wakes), hr⟩
    · rw [runs_pure]
      have hself : lastWoken World.consWaits w (v :: wakes) = w := if_neg fun hc => hw hc.1
      exact ⟨hself.symm, (if_neg hw).mpr ⟨_, List.Subset.refl _, rfl⟩⟩

/-- What a call at the console did: memory outside its buffer and all files are as they
were, and what it returns is -1 or at most `target`. -/
structure ConsoleDone (worlds : List World) (target dst n : Nat) (w : World) (r : Option Int)
    (w' : World) : Prop where
  mem : Within dst n w.mem w'.mem
  files : ∃ v ∈ worlds, w'.fs = v.fs
  result : ∀ c, r = some c → c ≤ target

theorem sub_toInt_le {target : BitVec 32} {n : Nat} (hn : n ≤ target.toNat) (ht : target.toNat < 2^31) :
    (target - BitVec.ofNat 32 n).toInt ≤ target.toNat := by
  have hsub : (target - BitVec.ofNat 32 n).toNat = target.toNat - n := by
    rw [BitVec.toNat_sub, BitVec.toNat_ofNat]
    omega
  rw [BitVec.toInt_eq_toNat_of_lt (by omega), hsub]
  omega

/-- A read at the console panics only at a character that has no place below `MAXVA`. -/
theorem consolereadLoop_spec {target : BitVec 32} (ht : target.toNat < 2^31) (n : Nat) :
    ∀ (dst : Nat) (wakes : List World) (w : World), w.mem.user (MAXVA/PGSIZE - 1) = false →
    n ≤ target.toNat → (0 < n → w.consOffers wakes → dst < MAXVA) →
    Runs (consolereadLoop target n dst wakes) w
      (ConsoleDone (w :: wakes) target.toNat dst n w) := by
  induction n with
  | zero =>
    intro dst wakes w _ _ _
    rw [consolereadLoop, runs_pure]
    refine ⟨Within.refl _ _ _, ⟨w, List.mem_cons_self, rfl⟩, fun c hc => ?_⟩
    rw [← Option.some.inj hc, BitVec.toInt_eq_toNat_of_lt (by omega)]
  | succ n ih =>
    intro dst wakes w htop hn hmax
    have hM : MAXVA < 2^64 := by decide
    rw [consolereadLoop]
    apply (consoleWait_spec wakes w).bind
    intro r w1 ⟨hw1, hr⟩
    obtain ⟨v, hv, hlast⟩ := lastWoken_eq World.consWaits wakes w
    have hmem : w1.mem = w.mem := by rw [hw1, hlast]
    have hfs : w1.fs = v.fs := by rw [hw1, hlast]
    have hfiles : ∃ u ∈ w :: wakes, w1.fs = u.fs := ⟨v, hv, hfs⟩
    have hsame : Within dst (n+1) w.mem w1.mem := by
      rw [hmem]
      exact Within.refl _ _ _
    split_ifs at hr with hwait
    · rcases hr with rfl | rfl
      · rw [runs_pure]
        refine ⟨hsame, hfiles, fun c hc => ?_⟩
        rw [← Option.some.inj hc]
        omega
      · rw [runs_pure]
        exact ⟨hsame, hfiles, fun c hc => by cases hc⟩
    · obtain ⟨rest, hrest, rfl⟩ := hr
      have hleft : ∀ c, some (target - BitVec.ofNat 32 (n+1)).toInt = some c → c ≤ target.toNat := by
        intro c hc
        rw [← Option.some.inj hc]
        exact sub_toInt_le hn ht
      simp only [runs_bind, runs_get, runs_ite, runs_set, runs_pure, runs_copyoutUser]
      refine ⟨fun _ => ⟨fun _ => ⟨hsame, hfiles, hleft⟩, fun _ => ⟨hsame, hfiles, hleft⟩⟩,
        fun hd => ⟨?_, fun hin => ?_, fun _ => ⟨fun _ => ⟨hsame, hfiles, hleft⟩, fun hc => absurd trivial hc⟩⟩⟩
      · apply hmax (Nat.succ_pos n)
        unfold World.consOffers
        rw [← hw1]
        exact ⟨hwait, hd⟩
      · -- The byte was copied. The next one goes behind it.
        have htop1 : w1.mem.user (MAXVA/PGSIZE - 1) = false := by
          rw [hmem]
          exact htop
        have hnext := hin.succ htop1
        have hput : Within dst (n+1) w.mem (w1.mem.put dst [w1.cons.at w1.cons.r]) := by
          rw [hmem]
          exact (put_within dst _ w.mem).widen le_rfl
            (Nat.add_le_add_left (Nat.succ_le_succ (Nat.zero_le n)) dst)
        refine ⟨fun hbad => absurd hbad (by decide), fun _ => ⟨fun _ => ?_, fun _ => ?_⟩⟩
        · refine ⟨hput, hfiles, fun c hc => ?_⟩
          rw [← Option.some.inj hc]
          exact sub_toInt_le (by omega) ht
        · rw [Nat.mod_eq_of_lt (by omega)]
          refine (ih (dst+1) rest _ ?_ (by omega) fun _ _ => hnext).imp ?_
          · exact htop1
          intro r w' h
          refine ⟨hput.trans (h.mem.widen (by omega) (by omega)), ?_, h.result⟩
          obtain ⟨u, hu, hufs⟩ := h.files
          rcases List.mem_cons.mp hu with rfl | hu
          · exact ⟨v, hv, hufs.trans hfs⟩
          · exact ⟨u, List.mem_cons_of_mem _ (hrest hu), hufs⟩

theorem consolereadLoop_low {target : BitVec 32} {n dst : Nat} {wakes : List World} {w : World}
    {Q : Option Int → World → Prop} (h : Runs (consolereadLoop target n dst wakes) w Q) (hn : 0 < n)
    (hoffers : w.consOffers wakes) : dst < MAXVA := by
  obtain ⟨n, rfl⟩ : ∃ k, n = k+1 := ⟨n-1, by omega⟩
  obtain ⟨r, w1, hrun, hw1, hr⟩ := consoleWait_spec wakes w
  unfold World.consOffers at hoffers
  rw [← hw1] at hoffers
  rw [if_neg hoffers.1] at hr
  obtain ⟨rest, _, rfl⟩ := hr
  rw [consolereadLoop, runs_bind] at h
  have h1 := h.of_eq hrun
  simp only [runs_bind, runs_get, runs_ite, runs_set, runs_copyoutUser] at h1
  exact (h1.2 hoffers.2).1

end Console

section Inode

/-- Bytes are copied to user memory up to the first one that has no place. -/
structure UserCopied (mem : UserMem) (addr : Nat) (bytes : List UInt8) (all : Bool) (mem' : UserMem) :
    Prop where
  low : bytes ≠ [] → addr < MAXVA
  stored : ∃ u, mem.Upto addr bytes.length u ∧ (all = true ↔ u = bytes.length) ∧
    mem' = mem.put addr (bytes.take u)

theorem userCopy_ok {d d' : UserMem × Nat} {a : List UInt8} {r : Int}
    (h : userCopy d a = .ok (r, d')) :
    UserCopied d.1 d.2 a (r ≠ -1) d'.1 ∧ d'.2 = d.2 + a.length := by
  unfold userCopy UserMem.copyout at h
  split_ifs at h with hlow
  obtain ⟨u, hu, hrun⟩ := copyoutLoop_upto a.length d.2 a d.1 le_rfl
  rw [hrun] at h
  cases h
  refine ⟨⟨fun hne => Nat.lt_of_not_le fun hc => hlow ⟨hne, hc⟩, u, hu, ?_, rfl⟩, rfl⟩
  by_cases hall : u = a.length <;> simp [hall]

theorem Pieces.user {d d' : UserMem × Nat} {bytes : List UInt8} {all : Bool}
    (h : Pieces userCopy d bytes all d') : UserCopied d.1 d.2 bytes all d'.1 := by
  induction h with
  | @nil d =>
    refine ⟨fun h => absurd rfl h, 0, UserMem.Upto.nil, by simp, ?_⟩
    rw [List.take_nil, UserMem.put_nil]
  | @fail d d' a b hc =>
    obtain ⟨⟨hlow, u, hu, hall, hput⟩, _⟩ := userCopy_ok hc
    have hle := hu.le
    have hlt : u < a.length := by
      have : u ≠ a.length := fun hc => by simpa using hall.mpr hc
      omega
    refine ⟨fun _ => hlow (List.ne_nil_of_length_pos (by omega)), u, ?_, ?_, ?_⟩
    · rw [List.length_append]
      exact ⟨by omega, hu.user, fun _ => hu.stop hlt⟩
    · rw [List.length_append]
      simp only [Bool.false_eq_true, false_iff]
      omega
    · rw [List.take_append_of_le_length hle]
      exact hput
  | @cons d d1 d' a b r all hc hr _ ih =>
    obtain ⟨⟨hlow, u, hu, hall, hput⟩, hnext⟩ := userCopy_ok hc
    obtain rfl : u = a.length := hall.mp (by simpa using hr)
    rw [List.take_length] at hput
    obtain ⟨hlow', v, hv, hall', hput'⟩ := ih
    rw [hput, hnext] at hv hput'
    rw [hnext] at hlow'
    refine ⟨fun hne => ?_, a.length+v, ?_, ?_, ?_⟩
    · by_cases ha : a = []
      · rw [ha] at hlow' hne
        exact hlow' hne
      · exact hlow ha
    · rw [List.length_append]
      exact hu.append ⟨hv.le, hv.user, hv.stop⟩
    · rw [hall', List.length_append]
      omega
    · rw [hput', ← UserMem.put_append, List.take_length_add_append]

/-- Only a copy that begins at `MAXVA` or above panics. -/
theorem CopyPanics.user {d : UserMem × Nat} {bytes : List UInt8} {e : String}
    (h : CopyPanics userCopy d bytes e) (htop : d.1.user (MAXVA/PGSIZE - 1) = false) :
    bytes ≠ [] ∧ MAXVA ≤ d.2 := by
  induction h with
  | here hc =>
    unfold userCopy at hc
    split_ifs at hc with hhigh
    exact ⟨List.append_ne_nil_of_left_ne_nil hhigh.1 _, hhigh.2⟩
  | @later d d1 a b r e hc hr _ ih =>
    obtain ⟨⟨_, u, hu, hall, hput⟩, hnext⟩ := userCopy_ok hc
    obtain rfl : u = a.length := hall.mp (by simpa using hr)
    rw [hput, hnext] at ih
    obtain ⟨hne, hhigh⟩ := ih htop
    refine ⟨List.append_ne_nil_of_right_ne_nil _ hne, ?_⟩
    by_cases ha : a.length = 0
    · omega
    · have := (hu.user (a.length-1) (by omega)).succ htop
      omega

end Inode

section Read
variable [FsLayout] {w : World} {f : Fin NFILE} {addr : Nat} {n : Int}

/-- The file is open, no one has the lock of its inode, and the page below `MAXVA` is the
trampoline. -/
structure ReadReady (w : World) (f : Fin NFILE) : Prop where
  ok : FsOk w.fs
  type : (w.fs.sys.file f).type ≠ .FD_NONE
  held : (w.fs.sys.file f).type = .FD_INODE → FileHeld f w.fs
  free : (w.fs.sys.file f).type = .FD_INODE → (w.fs.cell (w.fs.sys.file f).ip).locked = false
  top : w.mem.user (MAXVA/PGSIZE - 1) = false

/-- What a read of at most `n` bytes to `addr` did: nothing outside the buffer changed, the
result is at most `n`, or 0 where `n` is negative, and the offset of an inode has moved by
the result. Pipes and devices have no offset, and their reads change no file. -/
structure ReadDone (f : Fin NFILE) (addr : Nat) (n : Int) (wakes : List World) (w : World)
    (r : Option Int) (w' : World) : Prop where
  mem : Within addr n.toNat w.mem w'.mem
  result : ∀ c, r = some c → c ≤ max n 0
  offset : (w.fs.sys.file f).type = .FD_INODE → ∃ c, r = some c ∧
    w'.fs.sys.file f = { w.fs.sys.file f with off := (w.fs.sys.file f).off + c.toNat }
  files : (w.fs.sys.file f).type ≠ .FD_INODE → ∃ v ∈ w :: wakes, w'.fs = v.fs

/-- The bytes of an inode that `readi` reads for the count `n`, which is unsigned there. -/
def World.inodeBytes (w : World) (f : Fin NFILE) (n : Int) : List UInt8 :=
  fileBytes f w.fs (BitVec.ofInt 32 n).toNat

/-- The read has a byte to copy. -/
def World.Offers (w : World) (f : Fin NFILE) (n : Int) (wakes : List World) : Prop :=
  (w.fs.sys.file f).readable = true ∧ match (w.fs.sys.file f).type with
    | .FD_PIPE => 0 < n ∧
      ¬ ((w.pipeWoken (w.fs.sys.file f).pipe wakes).pipe (w.fs.sys.file f).pipe).empty
    | .FD_DEVICE => (w.fs.sys.file f).major = CONSOLE ∧ 0 < n ∧ w.consOffers wakes
    | .FD_INODE => w.inodeBytes f n ≠ []
    | .FD_NONE => False

section
omit [FsLayout]

/-- A call that ends at once changes nothing. -/
theorem ReadDone.idle {c : Int} (hc : c ≤ 0) (wakes : List World) :
    ReadDone f addr n wakes w (some c) w := by
  refine ⟨Within.refl _ _ _, fun d hd => ?_, fun _ => ⟨c, rfl, ?_⟩,
    fun _ => ⟨w, List.mem_cons_self, rfl⟩⟩
  · rw [← Option.some.inj hd]
    omega
  · rw [Int.toNat_of_nonpos hc]
    rfl

theorem piperead_bounded (pi : Nat) (haddr : addr < 2^64) (htop : w.mem.user (MAXVA/PGSIZE - 1) = false)
    (hty : (w.fs.sys.file f).type ≠ .FD_INODE) (wakes : List World) :
    Runs (piperead pi addr n wakes) w (ReadDone f addr n wakes w) ↔
      (0 < n ∧ ¬ ((w.pipeWoken pi wakes).pipe pi).empty → addr < MAXVA) := by
  obtain ⟨u, hu, hwoken⟩ := w.pipeWoken_eq pi wakes
  have hmem : (w.pipeWoken pi wakes).mem = w.mem := by rw [hwoken]
  have hfs : (w.pipeWoken pi wakes).fs = u.fs := by rw [hwoken]
  rw [runs_piperead]
  set v := w.pipeWoken pi wakes with hv
  have hfiles : (w.fs.sys.file f).type ≠ .FD_INODE → ∃ u ∈ w :: wakes, v.fs = u.fs :=
    fun _ => ⟨u, hu, hfs⟩
  have hdone (c c' : Nat) (hc : c ≤ n.toNat) :
      ReadDone f addr n wakes w (some c) (v.taken pi addr c c') := by
    refine ⟨?_, fun d hd => ?_, fun h => absurd h hty, hfiles⟩
    · have hin := put_within addr ((v.pipe pi).front c) v.mem
      rw [PipeRing.length_front, hmem] at hin
      unfold World.taken
      rw [hmem]
      exact hin.widen le_rfl (by omega)
    · rw [← Option.some.inj hd]
      omega
  by_cases hwait : v.pipeWaits pi
  · refine iff_of_true ⟨fun _ => ?_, fun hno => absurd hwait hno⟩ fun h => absurd hwait.1 h.2
    refine ⟨by rw [hmem]; exact Within.refl _ _ _, fun c hc => ?_, fun h => absurd h hty, hfiles⟩
    split_ifs at hc
    rw [← Option.some.inj hc]
    omega
  · rw [and_iff_right fun h => absurd h hwait, imp_iff_right hwait]
    obtain ⟨c, hc, hread, hstop⟩ := exists_upto v.mem addr (min n.toNat (v.pipe pi).count)
    have hpos : 0 < n ∧ ¬ (v.pipe pi).empty ↔ 0 < min n.toNat (v.pipe pi).count := by
      rw [PipeRing.empty_iff]
      omega
    rw [hpos]
    by_cases hlt : c < min n.toNat (v.pipe pi).count
    · rw [runs_pipereadLoop_fail haddr hlt hread (hstop hlt), and_iff_left (hdone c (c+1) (by omega))]
      refine ⟨fun _ _ => by omega, fun hlow => ?_⟩
      have hlow := hlow (by omega)
      by_cases hz : c = 0
      · omega
      · have := (hread (c-1) (by omega)).succ (by rw [hmem]; exact htop)
        omega
    · obtain rfl : c = min n.toNat (v.pipe pi).count := by omega
      rw [runs_pipereadLoop hread]
      exact iff_of_true (hdone _ _ (by omega)) fun hpos => (hread 0 hpos).1

theorem consoleread_bounded (hlt : n < 2^31) (htop : w.mem.user (MAXVA/PGSIZE - 1) = false)
    (hty : (w.fs.sys.file f).type ≠ .FD_INODE) (wakes : List World) :
    Runs (consoleread addr n wakes) w (ReadDone f addr n wakes w) ↔
      (0 < n ∧ w.consOffers wakes → addr < MAXVA) := by
  unfold consoleread
  dsimp only
  by_cases hn : 0 < n
  · have htarget : (BitVec.ofInt 32 n).toNat = n.toNat := by
      rw [BitVec.toNat_ofInt]
      omega
    rw [if_pos hn]
    constructor
    · exact fun h hoffers => consolereadLoop_low h (by omega) hoffers.2
    · intro hlow
      apply (consolereadLoop_spec (by omega) n.toNat addr wakes w htop (by omega)
        fun _ hoffers => hlow ⟨hn, hoffers⟩).imp
      intro r w' h
      refine ⟨h.mem, fun c hc => ?_, fun h => absurd h hty, fun _ => h.files⟩
      have := h.result c hc
      omega
  · rw [if_neg hn, runs_pure, BitVec.sub_self]
    exact iff_of_true (ReadDone.idle le_rfl wakes) fun h => absurd h.1 hn

/-- A copy keeps to the buffer if it is no longer than the count, or stops before it has
changed a byte. -/
theorem UserCopied.done {mem mem' : UserMem} {bytes : List UInt8} {all : Bool}
    (h : UserCopied mem addr bytes all mem') (hn : 0 ≤ n → bytes.length ≤ n.toNat) :
    (Within addr n.toNat mem mem' ∧ (all = true → (bytes.length : Int) ≤ max n 0)) ↔
      (n < 0 → bytes ≠ [] → ∃ u < bytes.length, ¬ mem.userByte (addr+u) ∧
        ∀ x < u, bytes.getD x 0 = mem.byte (addr+x)) := by
  obtain ⟨_, u, ⟨hu, hread, hbad⟩, hall, hput⟩ := h
  have hlen : (bytes.take u).length = u := by
    rw [List.length_take]
    omega
  by_cases hneg : n < 0
  · have hz : n.toNat = 0 := Int.toNat_of_nonpos (by omega)
    have hbyte (x : Nat) (hx : x < u) : (bytes.take u).getD x 0 = bytes.getD x 0 := by
      rw [List.getD_eq_getElem?_getD, List.getD_eq_getElem?_getD, List.getElem?_take_of_lt hx]
    rw [hz, hput, put_within_zero, hlen, hall]
    constructor
    · intro ⟨hsame, hfew⟩ _ hne
      have hpos := List.length_pos_iff.mpr hne
      have hlt : u < bytes.length := by
        by_contra hc
        have := hfew (by omega)
        omega
      exact ⟨u, hlt, hbad hlt, fun x hx => by rw [← hbyte x hx, hsame x hx]⟩
    · intro h
      by_cases hne : bytes = []
      · rw [hne] at hu ⊢
        refine ⟨fun x hx => absurd hx (by simp at hu; omega), fun _ => ?_⟩
        rw [List.length_nil]
        omega
      · obtain ⟨v, hv, hout, hsame⟩ := h hneg hne
        -- Both are the first byte without a place.
        have huv : u ≤ v := by
          by_contra hc
          exact hout (hread v (by omega))
        refine ⟨fun x hx => ?_, fun hc => absurd (hread v (by omega)) hout⟩
        rw [hbyte x hx]
        exact hsame x (by omega)
  · have hn := hn (by omega)
    refine iff_of_true ⟨?_, fun _ => by omega⟩ fun h => absurd h hneg
    rw [hput]
    exact (put_within addr _ mem).widen le_rfl (by omega)

end

/-- The branch for inodes copies the bytes and moves the offset by their number, or returns
-1; it panics where there are bytes to copy and the address is not below `MAXVA`. -/
theorem filereadInode_spec (addr : Nat) (n : Int) (h : ReadReady w f) (hty : (w.fs.sys.file f).type = .FD_INODE) :
    Ensures (filereadInode f (w.fs.sys.file f).ip addr n) w
      (fun _ => ¬ (w.inodeBytes f n ≠ [] → addr < MAXVA)) fun r w' =>
      ∃ all, UserCopied w.mem addr (w.inodeBytes f n) all w'.mem ∧
        r = some (if all then ((w.inodeBytes f n).length : Int) else -1) ∧
        w'.fs.sys.file f = { w.fs.sys.file f with
          off := (w.fs.sys.file f).off + if all then (w.inodeBytes f n).length else 0 } := by
  unfold filereadInode inFiles
  apply ensures_get
  apply ensures_bind
  apply ensures_zoom
  refine (readRound_spec h.ok (h.held hty)).imp ?_ ?_
  · rintro e (hlocked | hpanic) hlow
    · rw [h.free hty] at hlocked
      cases hlocked
    · obtain ⟨hne, hhigh⟩ := hpanic.user h.top
      exact Nat.not_lt.mpr hhigh (hlow hne)
  · intro ⟨r, d⟩ s' ⟨all, hpieces, hr, hdone⟩
    apply ensures_modify
    apply ensures_pure
    refine ⟨all, hpieces.user, congrArg some ?_, hdone.file⟩
    cases all with
    | false =>
      have hr : r = minusOne := hr
      rw [hr]
      exact (by decide : (BitVec.ofNat 32 minusOne).toInt = -1)
    | true =>
      have hr : r = (w.inodeBytes f n).length := hr
      have hmax : MAXFILE*BSIZE < 2^31 := by decide
      have hlow : r < 2^31 := by
        by_cases hpos : 0 < r
        · have := fileBytes_end h.ok (h.held hty) (hr ▸ hpos)
          unfold World.inodeBytes at hr
          omega
        · omega
      have hnat : (BitVec.ofNat 32 r).toNat = r := by
        rw [BitVec.toNat_ofNat]
        omega
      rw [BitVec.toInt_eq_toNat_of_lt (by omega), hnat, hr]
      rfl

theorem filereadInode_bounded (h : ReadReady w f) (hlo : -2^31 ≤ n) (hlt : n < 2^31)
    (hty : (w.fs.sys.file f).type = .FD_INODE) (wakes : List World) :
    Runs (filereadInode f (w.fs.sys.file f).ip addr n) w (ReadDone f addr n wakes w) ↔
      (w.inodeBytes f n ≠ [] → addr < MAXVA ∧ (n < 0 → ∃ u < (w.inodeBytes f n).length,
        ¬ w.mem.userByte (addr+u) ∧ ∀ x < u, (w.inodeBytes f n).getD x 0 = w.mem.byte (addr+x))) := by
  have hspec := filereadInode_spec addr n h hty
  have hfew : 0 ≤ n → (w.inodeBytes f n).length ≤ n.toNat := by
    intro hn
    have hcount : (BitVec.ofInt 32 n).toNat = n.toNat := by
      rw [BitVec.toNat_ofInt]
      omega
    rw [← hcount]
    exact length_readData ..
  constructor
  · intro ⟨r, w', hrun, hdone⟩ hne
    obtain ⟨all, hcopy, hr, _⟩ := hspec.1 _ _ hrun
    refine ⟨hcopy.low hne, fun hneg => (hcopy.done hfew).mp ⟨hdone.mem, fun hall => ?_⟩ hneg hne⟩
    rw [hall] at hr
    exact hdone.result _ hr
  · intro hcond
    have hlow : ∀ _ : String, ¬ ¬ (w.inodeBytes f n ≠ [] → addr < MAXVA) :=
      fun _ hc => hc fun hne => (hcond hne).1
    apply (hspec.runs hlow).imp
    intro r w' ⟨all, hcopy, hr, hfile⟩
    obtain ⟨hin, hcount⟩ := (hcopy.done hfew).mpr fun hneg hne => (hcond hne).2 hneg
    refine ⟨hin, fun c hc => ?_, fun _ => ⟨_, hr, ?_⟩, fun hno => absurd hty hno⟩
    · rw [← Option.some.inj (hr.symm.trans hc)]
      cases all with
      | false => exact le_max_of_le_right (by decide : (-1 : Int) ≤ 0)
      | true => exact hcount rfl
    · rw [hfile]
      cases all <;> rfl

/-- A read of any kind of file returns at most its count, moves the offset of an inode by
exactly what it returns, and changes no byte of the process outside of the buffer, if and
only if, where it has a byte to copy, the address is below `MAXVA` and the count is not
negative or the copy fails before it has changed a byte. -/
theorem sys_read_bounded {p : Fin NPROC} {fd : Int} (hfd : w.ofile p fd = some f) (h : ReadReady w f)
    (hlo : -2^31 ≤ n) (hlt : n < 2^31) (haddr : addr < 2^64) (wakes : List World) :
    Runs (sys_read p fd addr n wakes) w (ReadDone f addr n wakes w) ↔
      (w.Offers f n wakes → addr < MAXVA ∧ (n < 0 → ∃ u < (w.inodeBytes f n).length,
        ¬ w.mem.userByte (addr+u) ∧ ∀ x < u, (w.inodeBytes f n).getD x 0 = w.mem.byte (addr+x))) := by
  unfold sys_read fileread
  rw [runs_bind, runs_get, hfd]
  change Runs (get >>= _) w _ ↔ _
  rw [runs_bind, runs_get]
  dsimp only
  unfold World.Offers
  cases hreadable : (w.fs.sys.file f).readable with
  | false =>
    rw [if_pos rfl, runs_pure]
    exact iff_of_true (ReadDone.idle (by decide) wakes) fun hc => absurd hc.1 (by decide)
  | true =>
    rw [if_neg (by decide), and_iff_right rfl]
    cases hty : (w.fs.sys.file f).type with
    | FD_NONE => exact absurd hty h.type
    | FD_PIPE =>
      dsimp only
      rw [piperead_bounded _ haddr h.top (by rw [hty]; decide) wakes]
      exact imp_congr_right fun hc => (and_iff_left fun hneg => by omega).symm
    | FD_DEVICE =>
      dsimp only
      by_cases hmajor : (w.fs.sys.file f).major = CONSOLE
      · rw [if_neg (by rw [hmajor]; decide), consoleread_bounded hlt h.top (by rw [hty]; decide) wakes,
          and_iff_right hmajor]
        exact imp_congr_right fun hc => (and_iff_left fun hneg => by omega).symm
      · rw [if_pos (Or.inr (Or.inr hmajor)), runs_pure]
        exact iff_of_true (ReadDone.idle (by decide) wakes) fun hc => absurd hc.1 hmajor
    | FD_INODE => exact filereadInode_bounded h hlo hlt hty wakes

end Read

def initSlot : Fin NPROC := ⟨0, by decide⟩

def rootFile : Fin NFILE := ⟨0, by decide⟩

/-- The file of descriptor 0 is the root directory of the disk of `mkfs`, at offset 0. -/
def rootWorld : World where
  fs := {
    st := bootStore 2 30 mkfsDisk
    cell := fun j => if j = 0 then ⟨1, 1, true, false⟩ else ⟨0, 0, false, false⟩
    mem := fun j => if j = 0 then rootDinode else Dinode.new 0
    sys := { noFiles with
      file := fun _ => ⟨.FD_INODE, 1, true, false, 0, 0, 0, 0⟩
      proc := fun _ => ⟨false, none, fun _ => some rootFile⟩ } }
  pipe _ := ⟨fun _ => 0, 0, 0, false, false⟩
  cons := ⟨fun _ => 0, 0, 0, 0⟩
  killed := false
  mem := onePage

theorem rootWorld_ready : let _ := sampleFs
    ReadReady rootWorld rootFile := by
  intro _
  have hview : rootWorld.fs.st.view = mkfsDisk := rfl
  have hused (j : ISlot) (hj : 0 < (rootWorld.fs.cell j).ref) : j = 0 := by
    by_contra hne
    change 0 < (if j = 0 then (⟨1, 1, true, false⟩ : Icell) else ⟨0, 0, false, false⟩).ref at hj
    rw [if_neg hne] at hj
    exact Nat.lt_irrefl 0 hj
  refine ⟨mkfs_ok hview rfl rfl rfl ⟨?_, ?_⟩, by decide, fun _ => ⟨by decide, rfl⟩, fun _ => rfl, by decide⟩
  · intro j k hj hk _
    rw [hused j hj, hused k hk]
  · intro j hj _
    rw [hused j hj, mkfs_dino hview]
    exact ⟨by decide, rfl⟩

/-- Two bytes of the root directory. -/
theorem sys_read_bounded_root : let _ := sampleFs
    Runs (sys_read initSlot 0 40 2 []) rootWorld fun r w' => ∃ c, r = some c ∧ c ≤ 2 ∧
      (w'.fs.sys.file rootFile).off = c.toNat := by
  intro _
  have hread : Runs (sys_read initSlot 0 40 2 []) rootWorld (ReadDone rootFile 40 2 [] rootWorld) :=
    (sys_read_bounded rfl rootWorld_ready (by decide) (by decide) (by decide) []).mpr
      fun _ => ⟨by decide, fun hneg => absurd hneg (by decide)⟩
  apply hread.imp
  intro r w' h
  obtain ⟨c, hr, hfile⟩ := h.offset rfl
  refine ⟨c, hr, h.result c hr, ?_⟩
  rw [hfile]
  exact Nat.zero_add _

/-- `read(fd, 0, -1)` at offset 0 returns the whole file: the count is unsigned in `readi`,
and cut there to the size. The byte at address 0 has changed. -/
theorem sys_read_negative_count : let _ := sampleFs
    (sys_read initSlot 0 0 (-1) [] rootWorld).map
      (fun r => (r.1, (r.2.fs.sys.file rootFile).off, rootWorld.mem.byte 0, r.2.mem.byte 0)) =
        .ok (some 1024, 1024, 7, 1) := by
  decide +kernel

end Xv6
