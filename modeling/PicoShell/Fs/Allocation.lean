import PicoShell.Fs.Inode
import PicoShell.Lib.Pool

namespace PicoShell.Fs

inductive Bitmap
  | inodes
  | data
  deriving DecidableEq

def Bitmap.capacity : Bitmap → ℕ
  | inodes => numInodes
  | data => numDataBlocks

def Disk.taken (d : Disk) : Bitmap → Finset ℕ
  | .inodes => (Finset.range numInodes).filter fun i => d.inodeBit i = true
  | .data => (Finset.range numDataBlocks).filter fun k => d.dataBit k = true

inductive AllocCall
  | inodeAlloc (inode : Inode)
  | inodeFree (inum : ℕ)
  | dataAlloc
  | dataFree (dnum : ℕ)

namespace AllocCall

/-- The return value and the disk; for `inode_alloc` the number that it sets in the inode. -/
def exec (d : Disk) : AllocCall → Exec (ℤ × Disk)
  | inodeAlloc inode => do
    let (r, d, inode) ← Fs.inodeAlloc d inode
    return (if r = 0 then inode.inum.toInt else r, d)
  | inodeFree inum => do
    let freed ← Fs.inodeFree d inum
    return (if freed.isSome then 0 else -1, freed.getD d)
  | dataAlloc => Fs.dataAlloc d
  | dataFree dnum => do
    let freed ← Fs.dataFree d dnum
    return (if freed.isSome then 0 else -1, freed.getD d)

def execs : List AllocCall → Disk → Exec (List ℤ × Disk)
  | [], d => .ok ([], d)
  | call :: calls, d => do
    let (r, d) ← call.exec d
    let (rs, d) ← execs calls d
    return (r :: rs, d)

def request : AllocCall → Bitmap × Option ℕ
  | inodeAlloc _ => (.inodes, none)
  | inodeFree inum => (.inodes, some inum)
  | dataAlloc => (.data, none)
  | dataFree dnum => (.data, some dnum)

def answer (call : AllocCall) : Option ℕ → ℤ
  | none => -1
  | some k => if call.request.2 = none then k else 0

def InRange (call : AllocCall) : Prop := ∀ k, call.request.2 = some k → k < call.request.1.capacity

def Stores (d : Disk) (r : ℤ) : AllocCall → Prop
  | inodeAlloc inode => r ≠ -1 → inodeRead d r = some { inode with inum := Int32.ofInt r }
  | dataAlloc => r ≠ -1 → dataRead d r = some (Bytes.zero 1024)
  | _ => True

end AllocCall

variable {d : Disk} {i k : ℕ}

theorem Disk.mem_taken_inodes : i ∈ d.taken .inodes ↔ i < 80 ∧ d.inodeBit i = true := by
  rw [taken, Finset.mem_filter, Finset.mem_range]

theorem Disk.mem_taken_data : k ∈ d.taken .data ↔ k < 120 ∧ d.dataBit k = true := by
  rw [taken, Finset.mem_filter, Finset.mem_range]
  exact Iff.rfl

theorem Disk.taken_zeroed : Disk.zeroed.taken = fun _ => ∅ := by
  funext b
  ext j
  cases b with
  | inodes => simp [mem_taken_inodes]
  | data => simp [mem_taken_data]

theorem Disk.taken_update {d' : Disk} {b : Bitmap} {s : Finset ℕ} (hself : d'.taken b = s)
    (hother : ∀ b', b' ≠ b → d'.taken b' = d.taken b') : d'.taken = Function.update d.taken b s := by
  funext b'
  by_cases hb : b' = b
  · rw [hb, Function.update_self, hself]
  · rw [Function.update_of_ne hb, hother b' hb]

theorem Disk.taken_takeInode (x : Inode) (hi : i < 80) : (d.takeInode x i).taken =
    Function.update d.taken .inodes (insert i (d.taken .inodes)) := by
  apply taken_update
  · ext j
    rw [Finset.mem_insert, mem_taken_inodes, mem_taken_inodes, inodeBit_takeInode _ _ _ hi]
    by_cases hj : j = i
    · simp [hj, hi]
    · simp [hj]
  · intro b hb
    cases b with
    | inodes => exact absurd rfl hb
    | data =>
      ext k
      rw [mem_taken_data, mem_taken_data, dataBit_takeInode _ _ _ hi]

theorem Disk.taken_takeData (hk : k < 120) : (d.takeData k).taken =
    Function.update d.taken .data (insert k (d.taken .data)) := by
  apply taken_update
  · ext j
    rw [Finset.mem_insert, mem_taken_data, mem_taken_data, dataBit_takeData _ _ hk]
    by_cases hj : j = k
    · simp [hj, hk]
    · simp [hj]
  · intro b hb
    cases b with
    | data => exact absurd rfl hb
    | inodes =>
      ext i
      rw [mem_taken_inodes, mem_taken_inodes, inodeBit_takeData _ _ hk]

theorem Disk.taken_clearInodeBit (hi : i < 80) : (d.clearInodeBit i).taken =
    Function.update d.taken .inodes ((d.taken .inodes).erase i) := by
  apply taken_update
  · ext j
    rw [Finset.mem_erase, mem_taken_inodes, mem_taken_inodes, inodeBit_clearInodeBit _ _ hi]
    by_cases hj : j = i
    · simp [hj]
    · simp [hj]
  · intro b hb
    cases b with
    | inodes => exact absurd rfl hb
    | data =>
      ext k
      rw [mem_taken_data, mem_taken_data, dataBit_clearInodeBit]

theorem Disk.taken_clearDataBit (hk : k < 120) : (d.clearDataBit k).taken =
    Function.update d.taken .data ((d.taken .data).erase k) := by
  apply taken_update
  · ext j
    rw [Finset.mem_erase, mem_taken_data, mem_taken_data, dataBit_clearDataBit _ _ hk]
    by_cases hj : j = k
    · simp [hj]
    · simp [hj]
  · intro b hb
    cases b with
    | data => exact absurd rfl hb
    | inodes =>
      ext i
      rw [mem_taken_inodes, mem_taken_inodes, inodeBit_clearDataBit]

namespace AllocCall

/-- A call does to the bitmaps what the pools do, on every disk. -/
structure Performs (call : AllocCall) (d : Disk) (pools : Bitmap → Finset ℕ) (d' : Disk) : Prop where
  result : call.exec d = .ok (call.answer (Pool.call Bitmap.capacity call.request pools).1, d')
  taken : d'.taken = (Pool.call Bitmap.capacity call.request pools).2
  fails : (Pool.call Bitmap.capacity call.request pools).1 = none → d' = d
  stores : call.Stores d' (call.answer (Pool.call Bitmap.capacity call.request pools).1)

theorem Performs.of_pool {call : AllocCall} {d d' : Disk} {r : Option ℕ} {pools : Bitmap → Finset ℕ}
    (hpool : Pool.call Bitmap.capacity call.request d.taken = (r, pools))
    (hrun : call.exec d = .ok (call.answer r, d')) (htaken : d'.taken = pools)
    (hfails : r = none → d' = d) (hstores : call.Stores d' (call.answer r)) :
    call.Performs d d.taken d' := by
  constructor
  · rw [hpool]
    exact hrun
  · rw [hpool]
    exact htaken
  · rw [hpool]
    exact hfails
  · rw [hpool]
    exact hstores

theorem performs_inodeAlloc (d : Disk) (x : Inode) :
    ∃ d', (inodeAlloc x).Performs d d.taken d' := by
  rcases inodeAlloc_cases d x with ⟨hfull, hrun⟩ | ⟨i, hi, hfree, hleast, hrun⟩
  · refine ⟨d, .of_pool (Pool.call_take_none fun j hj => ?_) ?_ rfl (fun _ => rfl) ?_⟩
    · exact Disk.mem_taken_inodes.mpr ⟨hj, hfull j hj⟩
    · rw [exec, hrun]
      rfl
    · exact fun hne => absurd rfl hne
  · have hi32 : (Int32.ofNat i).toInt = i := Int32.toInt_ofNat_of_lt (by omega)
    refine ⟨d.takeInode x i, .of_pool (Pool.call_take_some hi ?_ fun j hj => ?_) ?_
      (Disk.taken_takeInode x hi) (fun h => by contradiction) ?_⟩
    · rw [Disk.mem_taken_inodes, hfree]
      simp
    · exact Disk.mem_taken_inodes.mpr ⟨by omega, hleast j hj⟩
    · rw [exec, hrun]
      simp only [bind, Except.bind, pure, Except.pure, if_true, hi32]
      rfl
    · intro _
      show inodeRead (d.takeInode x i) i = some { x with inum := Int32.ofInt i }
      rw [inodeRead_of_lt _ hi, Disk.inode_takeInode _ _ hi hi, if_pos rfl]
      rfl

theorem performs_dataAlloc (d : Disk) : ∃ d', dataAlloc.Performs d d.taken d' := by
  rcases dataAlloc_cases d with ⟨hfull, hrun⟩ | ⟨k, hk, hfree, hleast, hrun⟩
  · refine ⟨d, .of_pool (Pool.call_take_none fun j hj => ?_) hrun rfl (fun _ => rfl) ?_⟩
    · exact Disk.mem_taken_data.mpr ⟨hj, hfull j hj⟩
    · exact fun hne => absurd rfl hne
  · refine ⟨d.takeData k, .of_pool (Pool.call_take_some hk ?_ fun j hj => ?_) hrun
      (Disk.taken_takeData hk) (fun h => by contradiction) ?_⟩
    · rw [Disk.mem_taken_data, hfree]
      simp
    · exact Disk.mem_taken_data.mpr ⟨by omega, hleast j hj⟩
    · intro _
      show dataRead (d.takeData k) k = some (Bytes.zero 1024)
      rw [dataRead_of_lt _ hk, Disk.data_takeData _ _ hk, if_pos rfl]

theorem performs_inodeFree (d : Disk) (hi : i < 80) : ∃ d', (inodeFree i).Performs d d.taken d' := by
  have hrun := inodeFree_of_lt d hi
  cases hbit : d.inodeBit i with
  | false =>
    refine ⟨d, .of_pool (Pool.call_give_none ?_) ?_ rfl (fun _ => rfl) trivial⟩
    · rw [Disk.mem_taken_inodes, hbit]
      simp
    · rw [exec, hrun, hbit]
      rfl
  | true =>
    refine ⟨d.clearInodeBit i, .of_pool (Pool.call_give_some ?_) ?_ (Disk.taken_clearInodeBit hi)
      (fun h => by contradiction) trivial⟩
    · exact Disk.mem_taken_inodes.mpr ⟨hi, hbit⟩
    · rw [exec, hrun, hbit]
      rfl

theorem performs_dataFree (d : Disk) (hk : k < 120) : ∃ d', (dataFree k).Performs d d.taken d' := by
  have hrun := dataFree_of_lt d hk
  cases hbit : d.dataBit k with
  | false =>
    refine ⟨d, .of_pool (Pool.call_give_none ?_) ?_ rfl (fun _ => rfl) trivial⟩
    · rw [Disk.mem_taken_data, hbit]
      simp
    · rw [exec, hrun, hbit]
      rfl
  | true =>
    refine ⟨d.clearDataBit k, .of_pool (Pool.call_give_some ?_) ?_ (Disk.taken_clearDataBit hk)
      (fun h => by contradiction) trivial⟩
    · exact Disk.mem_taken_data.mpr ⟨hk, hbit⟩
    · rw [exec, hrun, hbit]
      rfl

theorem performs {call : AllocCall} (hcall : call.InRange) (d : Disk) :
    ∃ d', call.Performs d d.taken d' := by
  cases call with
  | inodeAlloc x => exact performs_inodeAlloc d x
  | inodeFree i => exact performs_inodeFree d (hcall i rfl)
  | dataAlloc => exact performs_dataAlloc d
  | dataFree k => exact performs_dataFree d (hcall k rfl)

variable {calls : List AllocCall}

def answers (calls : List AllocCall) (pools : Bitmap → Finset ℕ) : List ℤ :=
  List.zipWith answer calls (Pool.run Bitmap.capacity (calls.map request) pools).1

theorem execs_eq (hcalls : ∀ call ∈ calls, call.InRange) (d : Disk) : ∃ d',
    execs calls d = .ok (answers calls d.taken, d') ∧
      d'.taken = (Pool.run Bitmap.capacity (calls.map request) d.taken).2 := by
  induction calls generalizing d with
  | nil => exact ⟨d, rfl, rfl⟩
  | cons call calls ih =>
    obtain ⟨d₁, h₁⟩ := performs (hcalls call List.mem_cons_self) d
    obtain ⟨d', hrun, htaken⟩ := ih (fun c hc => hcalls c (List.mem_cons_of_mem _ hc)) d₁
    rw [h₁.taken] at hrun htaken
    refine ⟨d', ?_, htaken⟩
    simp only [execs, h₁.result, bind, Except.bind, hrun]
    rfl

/-- A positive answer to an allocation is the number of the pool. -/
theorem answers_eq {pools : Bitmap → Finset ℕ} {call : AllocCall} {a : ℕ} (hcall : calls[a]? = some call)
    (halloc : call.request.2 = none) (hans : (answers calls pools)[a]? = some (k : ℤ)) :
    (Pool.run Bitmap.capacity (calls.map request) pools).1[a]? = some (some k) := by
  rw [answers, List.getElem?_zipWith_eq_some] at hans
  obtain ⟨call', r, hcall', hr, hans⟩ := hans
  rw [hcall, Option.some.injEq] at hcall'
  subst hcall'
  rw [hr]
  cases r with
  | none =>
    have hneg : (-1 : ℤ) = k := hans
    omega
  | some j =>
    rw [answer, if_pos halloc] at hans
    rw [Int.ofNat.inj hans]

/-- From the zeroed disk on the two bitmaps are two pools, whatever was allocated and freed before,
and no number is handed out twice without being freed in between. -/
theorem allocation_pools (calls : List AllocCall) (hcalls : ∀ call ∈ calls, call.InRange) : ∃ d,
    execs calls .zeroed = .ok (answers calls fun _ => ∅, d) ∧
    d.taken = (Pool.run Bitmap.capacity (calls.map request) fun _ => ∅).2 ∧
    (∀ call : AllocCall, call.InRange → ∃ d', call.Performs d d.taken d') ∧
    ∀ (a b k : ℕ) (call call' : AllocCall), a < b → calls[a]? = some call → calls[b]? = some call' →
      call.request.2 = none → call'.request = call.request →
      (answers calls fun _ => ∅)[a]? = some (k : ℤ) → (answers calls fun _ => ∅)[b]? = some (k : ℤ) →
      ∃ (c : ℕ) (free : AllocCall), a < c ∧ c < b ∧ calls[c]? = some free ∧
        free.request = (call.request.1, some k) := by
  obtain ⟨d, hrun, htaken⟩ := execs_eq hcalls .zeroed
  rw [Disk.taken_zeroed] at hrun htaken
  refine ⟨d, hrun, htaken, fun call hcall => performs hcall d, ?_⟩
  intro a b k call call' hab ha hb halloc hsame hka hkb
  have hreq : ∀ (e : ℕ) (c : AllocCall), calls[e]? = some c → (calls.map request)[e]? = some c.request := by
    intro e c hc
    rw [List.getElem?_map, hc]
    rfl
  have hcall : call.request = (call.request.1, none) := Prod.ext rfl halloc
  obtain ⟨c, hac, hcb, hfree⟩ := Pool.given_back hab ((hreq a call ha).trans (congrArg some hcall))
    ((hreq b call' hb).trans (congrArg some (hsame.trans hcall))) (answers_eq ha halloc hka)
    (answers_eq hb (hsame ▸ halloc) hkb)
  rw [List.getElem?_map, Option.map_eq_some_iff] at hfree
  obtain ⟨free, hc, hfree⟩ := hfree
  exact ⟨c, free, hac, hcb, hc, hfree⟩

/-- A block is taken, freed and taken again. -/
theorem allocation_pools_again : ∃ d,
    execs [dataAlloc, dataFree 0, dataAlloc] .zeroed =
      .ok (answers [dataAlloc, dataFree 0, dataAlloc] fun _ => ∅, d) ∧
    d.taken = (Pool.run Bitmap.capacity ([dataAlloc, dataFree 0, dataAlloc].map request)
      fun _ => ∅).2 ∧
    (∀ call : AllocCall, call.InRange → ∃ d', call.Performs d d.taken d') ∧
    ∀ (a b k : ℕ) (call call' : AllocCall), a < b →
      [dataAlloc, dataFree 0, dataAlloc][a]? = some call →
      [dataAlloc, dataFree 0, dataAlloc][b]? = some call' →
      call.request.2 = none → call'.request = call.request →
      (answers [dataAlloc, dataFree 0, dataAlloc] fun _ => ∅)[a]? = some (k : ℤ) →
      (answers [dataAlloc, dataFree 0, dataAlloc] fun _ => ∅)[b]? = some (k : ℤ) →
      ∃ (c : ℕ) (free : AllocCall), a < c ∧ c < b ∧
        [dataAlloc, dataFree 0, dataAlloc][c]? = some free ∧
        free.request = (call.request.1, some k) :=
  allocation_pools [dataAlloc, dataFree 0, dataAlloc] (by simp [InRange, request, Bitmap.capacity])

/-- The inode bitmap marks inodes only. -/
def TailFree (d : Disk) : Prop := ∀ q, 80 ≤ q → d.inodeBit q = false

/-- No call marks a bit behind the last inode, not even one with a number out of range. -/
theorem tailFree_exec {call : AllocCall} {d d' : Disk} {r : ℤ} (h : TailFree d)
    (hrun : call.exec d = .ok (r, d')) : TailFree d' := by
  intro q hq
  cases call with
  | inodeAlloc x =>
    rcases inodeAlloc_cases d x with ⟨-, heq⟩ | ⟨i, hi, -, -, heq⟩
    · rw [exec, heq] at hrun
      obtain ⟨-, rfl⟩ := Exec.ok_inj hrun
      exact h q hq
    · rw [exec, heq] at hrun
      obtain ⟨-, rfl⟩ := Exec.ok_inj hrun
      rw [Disk.inodeBit_takeInode _ _ _ hi, h q hq, decide_eq_false (by omega), Bool.or_false]
  | inodeFree i =>
    rw [exec] at hrun
    obtain ⟨freed, hfree, hrun⟩ := Exec.bind_ok hrun
    obtain ⟨-, rfl⟩ := Exec.ok_inj hrun
    by_cases hi : i < 80
    · rw [inodeFree_of_lt d hi] at hfree
      obtain rfl := Except.ok.inj hfree
      cases d.inodeBit i with
      | false => exact h q hq
      | true =>
        show (d.clearInodeBit i).inodeBit q = false
        rw [Disk.inodeBit_clearInodeBit _ _ hi, h q hq, Bool.and_false]
    -- A number out of range: its bit is clear by `h`, so `inode_free` clears none.
    · have hi := Nat.not_lt.mp hi
      rw [inodeFree_of_free d (h i hi)] at hfree
      split_ifs at hfree
      obtain rfl := Except.ok.inj hfree
      exact h q hq
  | dataAlloc =>
    rcases dataAlloc_cases d with ⟨-, heq⟩ | ⟨k, hk, -, -, heq⟩
    · rw [exec, heq] at hrun
      obtain ⟨-, rfl⟩ := Exec.ok_inj hrun
      exact h q hq
    · rw [exec, heq] at hrun
      obtain ⟨-, rfl⟩ := Exec.ok_inj hrun
      rw [Disk.inodeBit_takeData _ _ hk, h q hq]
  | dataFree k =>
    rw [exec] at hrun
    obtain ⟨freed, hfree, hrun⟩ := Exec.bind_ok hrun
    obtain ⟨-, rfl⟩ := Exec.ok_inj hrun
    by_cases hk : k < 120
    · rw [dataFree_of_lt d hk] at hfree
      obtain rfl := Except.ok.inj hfree
      cases d.dataBit k with
      | false => exact h q hq
      | true =>
        show (d.clearDataBit k).inodeBit q = false
        rw [Disk.inodeBit_clearDataBit, h q hq]
    · rw [dataFree_out_of_range d (by omega)] at hfree
      obtain rfl := Except.ok.inj hfree
      exact h q hq

theorem tailFree_execs {d d' : Disk} {rs : List ℤ} (h : TailFree d)
    (hrun : execs calls d = .ok (rs, d')) : TailFree d' := by
  induction calls generalizing d rs with
  | nil =>
    obtain ⟨-, rfl⟩ := Exec.ok_inj hrun
    exact h
  | cons call calls ih =>
    rw [execs] at hrun
    obtain ⟨⟨r, d₁⟩, hstep, hrun⟩ := Exec.bind_ok hrun
    obtain ⟨⟨rs', d₂⟩, hrest, hrun⟩ := Exec.bind_ok hrun
    obtain ⟨-, rfl⟩ := Exec.ok_inj hrun
    exact ih (tailFree_exec h hstep) hrest

/-- On every disk that the allocators leave, a number that is no inode's is refused by `inode_free`
if and only if it is a position of the bitmap block; the others are used as indices unchecked. -/
theorem inodeFree_refuses_iff {d : Disk} {rs : List ℤ} (hrun : execs calls .zeroed = .ok (rs, d))
    {inum : ℤ} (hout : inum < 0 ∨ numInodes ≤ inum) :
    Fs.inodeFree d inum = .ok none ↔ 0 ≤ inum ∧ inum < 8 * blockSize := by
  have htail : TailFree d := tailFree_execs (fun q _ => Disk.inodeBit_zeroed q) hrun
  simp only [numInodes, blockSize, Nat.cast_ofNat] at hout ⊢
  by_cases hneg : inum < 0
  · have hfault := bitmapFree_out_of_range d (k := 1) (by decide) (.inl hneg)
    rw [Fs.inodeFree, show ((inodeBitmapBlock : ℕ) : ℤ) = ((1 : ℕ) : ℤ) from rfl, hfault]
    constructor
    · intro h
      contradiction
    · omega
  · lift inum to ℕ using by omega
    have hlo : 80 ≤ inum := by omega
    rw [inodeFree_of_free d (htail inum hlo)]
    split_ifs with hlt
    · exact iff_of_true rfl (by omega)
    · constructor
      · intro h
        contradiction
      · omega

/-- The number one behind the last inode, on a disk with one inode. -/
theorem inodeFree_refuses_next : ∃ rs d,
    execs [inodeAlloc ⟨.fileT, 0, 0, 1, fun _ => -1⟩] .zeroed = .ok (rs, d) ∧
      Fs.inodeFree d 80 = .ok none := by
  have hcalls : ∀ call ∈ [inodeAlloc ⟨.fileT, 0, 0, 1, fun _ => -1⟩], call.InRange := by
    simp [InRange, request]
  obtain ⟨d, hrun, -⟩ := execs_eq hcalls .zeroed
  exact ⟨_, d, hrun, (inodeFree_refuses_iff hrun (by decide)).mpr (by decide)⟩

/-- `-1` shifts by a negative count, and `8192` is an index behind the block. -/
theorem inodeFree_not_refused : execs [] .zeroed = .ok ([], .zeroed) ∧
    Fs.inodeFree .zeroed (-1) = .error .shift ∧ Fs.inodeFree .zeroed 8192 = .error .index :=
  ⟨rfl, bitmapFree_out_of_range .zeroed (k := 1) (by decide) (.inl (by decide)),
    bitmapFree_out_of_range .zeroed (k := 1) (by decide) (.inr (by decide))⟩

end AllocCall

end PicoShell.Fs
