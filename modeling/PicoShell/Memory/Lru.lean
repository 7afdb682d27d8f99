import PicoShell.Lib.Linked
import PicoShell.Memory.Machine

/-! `lru.c` with its nodes and links, and the recency order that it keeps for
`access_frame` and `get_lru_frame`. -/

namespace PicoShell.Scheduling

open Linked

/-- The fields of `struct LRUNode` by address, and the two globals.  Addresses below `size` were
returned by `malloc`. -/
structure LRU where
  frame : ℕ → ℤ
  prev : ℕ → Option ℕ
  next : ℕ → Option ℕ
  size : ℕ
  head : ℕ
  tail : ℕ

namespace LRU

variable (l : LRU)

def setNext (p q : Option ℕ) : Exec LRU :=
  match p with
  | none => .error .pointer
  | some a => .ok { l with next := Function.update l.next a q }

def setPrev (p q : Option ℕ) : Exec LRU :=
  match p with
  | none => .error .pointer
  | some a => .ok { l with prev := Function.update l.prev a q }

def lruNodeInit (frame : ℤ) : ℕ × LRU :=
  (l.size, { l with
    frame := Function.update l.frame l.size frame
    prev := Function.update l.prev l.size none
    next := Function.update l.next l.size none
    size := l.size + 1 })

/-- The loop of `lru_init` over the next `n` frames; the node it links last. -/
def initLoop : ℕ → ℕ → ℕ → LRU → ℕ × LRU
  | 0, _, prev, l => (prev, l)
  | n + 1, frame, prev, l =>
    let (node, l) := l.lruNodeInit frame
    let l := { l with
      next := Function.update l.next prev (some node)
      prev := Function.update l.prev node (some prev) }
    initLoop n (frame + 1) node l

/-- `lru_init`, whatever the memory holds. -/
def lruInit (s : Sizes) : LRU :=
  let (head, l) := l.lruNodeInit (-1)
  let (tail, l) := l.lruNodeInit (-1)
  let (prev, l) := initLoop s.numFrames 0 head { l with head := head, tail := tail }
  { l with
    next := Function.update l.next prev (some tail)
    prev := Function.update l.prev tail (some prev) }

def getLruFrame : Exec ℤ :=
  match l.prev l.tail with
  | none => .error .pointer
  | some lru => .ok (l.frame lru)

/-- The search of `access_frame` from `node` on. -/
def search (frame : ℤ) : ℕ → Option ℕ → Exec ℕ
  | 0, _ => .error .fuel
  | _ + 1, none => .error .pointer
  | fuel + 1, some node =>
    if l.frame node = frame then .ok node else search frame fuel (l.next node)

/-- `access_frame`, with a search of at most `fuel` steps. -/
def accessFrame (fuel : ℕ) (frame : ℤ) : Exec LRU := do
  let node ← l.search frame fuel (some l.head)
  -- extract target and seal gap
  let left := l.prev node
  let right := l.next node
  let l ← l.setNext left right
  let l ← l.setPrev right left
  -- put node at head of queue
  let left := some l.head
  let right := l.next l.head
  let l ← l.setNext left (some node)
  let l ← l.setNext (some node) right
  let l ← l.setPrev right (some node)
  l.setPrev (some node) (some l.head)

def accessFrames (fuel : ℕ) : List ℤ → LRU → Exec LRU
  | [], l => .ok l
  | frame :: frames, l => do
    let l ← l.accessFrame fuel frame
    accessFrames fuel frames l

/-- Between the sentinels are `nodes`, linked forwards and backwards. -/
structure Between (nodes : List ℕ) : Prop where
  joined : Joined l.next l.prev (l.head :: (nodes ++ [l.tail]))
  nodup : (l.head :: (nodes ++ [l.tail])).Nodup
  first : l.prev l.head = none
  last : l.next l.tail = none
  sentinels : l.frame l.head = -1 ∧ l.frame l.tail = -1

variable {l l' : LRU} {f : ℤ} {p : Option ℕ} {x fuel : ℕ} {nodes nodes₁ nodes₂ : List ℕ}

/-- The search passes the nodes of other frames. -/
theorem search_ok (h : Leads l.next p (nodes₁ ++ x :: nodes₂)) (hx : l.frame x = f)
    (hnodes : ∀ y ∈ nodes₁, l.frame y ≠ f) (hfuel : nodes₁.length < fuel) :
    l.search f fuel p = .ok x := by
  induction nodes₁ generalizing p fuel with
  | nil =>
    obtain ⟨fuel, rfl⟩ := Nat.exists_eq_succ_of_ne_zero (Nat.ne_of_gt hfuel)
    obtain ⟨rfl, -⟩ := h
    rw [search, if_pos hx]
  | cons y nodes₁ ih =>
    obtain ⟨fuel, rfl⟩ := Nat.exists_eq_succ_of_ne_zero (Nat.ne_of_gt (Nat.zero_lt_of_lt hfuel))
    obtain ⟨rfl, h⟩ := h
    rw [search, if_neg (hnodes y List.mem_cons_self)]
    exact ih h (fun z hz => hnodes z (List.mem_cons_of_mem y hz)) (Nat.lt_of_succ_lt_succ hfuel)

/-- The links once `x` was taken from between `a` and `b` and put in front of `c`. -/
def moved (l : LRU) (x a b c : ℕ) : LRU :=
  { l with
    next := Function.update (Function.update (Function.update l.next a (some b)) l.head (some x)) x
      (some c)
    prev := Function.update (Function.update (Function.update l.prev b (some a)) c (some x)) x
      (some l.head) }

theorem accessFrame_eq {a b c : ℕ} (hsearch : l.search f fuel (some l.head) = .ok x)
    (hprev : l.prev x = some a) (hnext : l.next x = some b)
    (hfirst : Function.update l.next a (some b) l.head = some c) :
    l.accessFrame fuel f = .ok (l.moved x a b c) := by
  simp only [accessFrame, hsearch, bind, Except.bind, hprev, hnext, setNext, setPrev, hfirst]
  rfl

/-- The accessed node moves to the front, and nothing else happens. -/
theorem Between.accessFrame (h : l.Between (nodes₁ ++ x :: nodes₂)) (hx : l.frame x = f)
    (hnodes : ∀ y ∈ nodes₁, l.frame y ≠ f) (hf : f ≠ -1) (hfuel : nodes₁.length + 1 < fuel) :
    ∃ l', l.accessFrame fuel f = .ok l' ∧ l'.Between (x :: (nodes₁ ++ nodes₂)) ∧
      l'.frame = l.frame := by
  have hsearch : l.search f fuel (some l.head) = .ok x := by
    have hleads : Leads l.next (some l.head) ((l.head :: nodes₁) ++ x :: (nodes₂ ++ [l.tail])) := by
      have := h.joined.leads (by simpa [List.getLast?_cons] using h.last)
      simpa using this
    apply search_ok hleads hx _ (by simpa using hfuel)
    intro y hy
    rcases List.mem_cons.mp hy with rfl | hy
    · rw [h.sentinels.1]
      exact Ne.symm hf
    · exact hnodes y hy
  -- the neighbours of the node
  obtain ⟨left, a, hleft⟩ : ∃ left a, l.head :: nodes₁ = left ++ [a] :=
    ⟨_, _, (List.dropLast_append_getLast (List.cons_ne_nil _ _)).symm⟩
  obtain ⟨b, right, hright⟩ : ∃ b right, nodes₂ ++ [l.tail] = b :: right :=
    List.exists_cons_of_ne_nil (by simp)
  have hlist : l.head :: (nodes₁ ++ x :: nodes₂ ++ [l.tail]) = left ++ a :: x :: b :: right := by
    rw [List.append_assoc, List.cons_append, hright, ← List.cons_append, hleft]
    simp
  have hjoined := h.joined
  have hnodup := h.nodup
  rw [hlist] at hjoined hnodup
  obtain ⟨-, ⟨-, hprev⟩, hbehind⟩ := List.isChain_append_cons_cons.mp hjoined
  have hnext := (List.isChain_cons_cons.mp hbehind).1.1
  -- the list once the gap is sealed
  obtain ⟨c, rest, hc⟩ : ∃ c rest, nodes₁ ++ nodes₂ ++ [l.tail] = c :: rest :=
    List.exists_cons_of_ne_nil (by simp)
  have hsealed : left ++ a :: b :: right = l.head :: c :: rest := by
    rw [← hc, List.append_assoc, hright, ← List.cons_append, hleft]
    simp
  have hperm : (left ++ a :: x :: b :: right).Perm (x :: l.head :: c :: rest) := by
    have hmiddle : ((left ++ [a]) ++ x :: b :: right).Perm (x :: ((left ++ [a]) ++ b :: right)) :=
      List.perm_middle
    rw [← hsealed]
    simpa using hmiddle
  have hjoined' := hjoined.unlink hnodup
  rw [hsealed] at hjoined'
  obtain ⟨hx', hnodup'⟩ := List.nodup_cons.mp (hperm.nodup hnodup)
  have hhead := (List.nodup_cons.mp hnodup').1
  have hb : b ∈ c :: rest := by
    rw [← hc, List.append_assoc, hright]
    simp
  have htail : l.tail ∈ c :: rest := by
    rw [← hc]
    simp
  have ha : a ≠ l.tail := by
    have hends : ((l.head :: nodes₁) ++ (x :: nodes₂ ++ [l.tail])).Nodup := by
      simpa using h.nodup
    exact (List.nodup_append.mp hends).2.2 a (by simp [hleft]) l.tail (by simp)
  have hfirst := (List.isChain_cons_cons.mp hjoined').1.1
  refine ⟨l.moved x a b c, accessFrame_eq hsearch hprev hnext hfirst, ⟨?_, ?_, ?_, ?_, h.sentinels⟩,
    rfl⟩
  · show Joined _ _ (l.head :: (x :: (nodes₁ ++ nodes₂) ++ [l.tail]))
    rw [List.cons_append, hc]
    exact hjoined'.insert hnodup' hx'
  · show (l.head :: (x :: (nodes₁ ++ nodes₂) ++ [l.tail])).Nodup
    rw [List.cons_append, hc]
    exact (List.Perm.swap l.head x (c :: rest)).nodup (hperm.nodup hnodup)
  · show (l.moved x a b c).prev l.head = none
    simp only [moved]
    rw [Function.update_of_ne, Function.update_of_ne, Function.update_of_ne, h.first]
    · exact fun heq => hhead (heq ▸ hb)
    · exact fun heq => hhead (by simp [heq])
    · exact fun heq => hx' (by simp [heq])
  · show (l.moved x a b c).next l.tail = none
    simp only [moved]
    rw [Function.update_of_ne, Function.update_of_ne, Function.update_of_ne ha.symm, h.last]
    · exact fun heq => hhead (heq ▸ htail)
    · exact fun heq => hx' (heq ▸ List.mem_cons_of_mem _ htail)

/-- The list while `lru_init` builds it: `last` is the node it linked last, and the nodes are
those of the first frames. -/
structure Building (l : LRU) (nodes : List ℕ) (last : ℕ) : Prop where
  joined : Joined l.next l.prev (l.head :: nodes)
  last : ∃ before, l.head :: nodes = before ++ [last]
  nodup : (l.tail :: l.head :: nodes).Nodup
  old : ∀ y ∈ l.tail :: l.head :: nodes, y < l.size
  first : l.prev l.head = none
  stop : l.next l.tail = none
  sentinels : l.frame l.head = -1 ∧ l.frame l.tail = -1
  frames : nodes.map l.frame = (List.range nodes.length).map fun k : ℕ => (k : ℤ)

def link (l : LRU) (frame : ℤ) (last : ℕ) : LRU :=
  { (l.lruNodeInit frame).2 with
    next := Function.update (l.lruNodeInit frame).2.next last (some l.size)
    prev := Function.update (l.lruNodeInit frame).2.prev l.size (some last) }

theorem Building.link {last : ℕ} (h : l.Building nodes last) :
    (l.link nodes.length last).Building (nodes ++ [l.size]) l.size := by
  obtain ⟨before, hlast⟩ := h.last
  have hne : ∀ y ∈ l.tail :: l.head :: nodes, y ≠ l.size := fun y hy => (h.old y hy).ne
  have hmem : last ∈ l.head :: nodes := by simp [hlast]
  have hself : ∀ (g : ℕ → Option ℕ), ∀ y ∈ l.tail :: l.head :: nodes,
      Function.update g l.size none y = g y := fun g y hy => Function.update_of_ne (hne y hy) _ _
  have hframe : ∀ y ∈ l.tail :: l.head :: nodes,
      (l.link nodes.length last).frame y = l.frame y := fun y hy =>
    Function.update_of_ne (hne y hy) _ _
  refine ⟨?_, ⟨l.head :: nodes, rfl⟩, ?_, ?_, ?_, ?_, ?_, ?_⟩
  -- Behind `last` the node is in the list; the links of the others are old.
  · have hjoined : Joined (Function.update l.next l.size none) (Function.update l.prev l.size none)
        (before ++ [last]) := by
      rw [← hlast]
      refine h.joined.congr (fun y hy => hself _ y ?_) (fun y hy => hself _ y ?_)
      · exact List.mem_cons_of_mem _ (List.dropLast_subset _ hy)
      · exact List.mem_cons_of_mem _ (List.mem_of_mem_tail hy)
    have hfresh : l.size ∉ before ++ [last] := by
      rw [← hlast]
      exact fun hin => hne _ (List.mem_cons_of_mem _ hin) rfl
    have hnodup := (List.nodup_cons.mp h.nodup).2
    rw [hlast] at hnodup
    have := hjoined.concat hfresh hnodup
    rwa [← hlast] at this
  · exact List.nodup_append.mpr ⟨h.nodup, List.nodup_singleton _, fun y hy z hz => by
      rw [List.mem_singleton.mp hz]
      exact hne y hy⟩
  · intro y hy
    show y < l.size + 1
    rcases List.mem_append.mp (show y ∈ (l.tail :: l.head :: nodes) ++ [l.size] from hy) with hy | hy
    · exact Nat.lt_succ_of_lt (h.old y hy)
    · rw [List.mem_singleton.mp hy]
      exact Nat.lt_succ_self _
  · show Function.update (Function.update l.prev l.size none) l.size (some last) l.head = none
    rw [Function.update_of_ne (hne _ (by simp)), hself _ _ (by simp), h.first]
  · show Function.update (Function.update l.next l.size none) last (some l.size) l.tail = none
    rw [Function.update_of_ne, hself _ _ (by simp), h.stop]
    exact fun heq => (List.nodup_cons.mp h.nodup).1 (heq ▸ hmem)
  · exact ⟨(hframe l.head (by simp)).trans h.sentinels.1,
      (hframe l.tail (by simp)).trans h.sentinels.2⟩
  · have hold : nodes.map (l.link nodes.length last).frame = nodes.map l.frame :=
      List.map_congr_left fun y hy => hframe y (by simp [hy])
    rw [List.map_append, hold, h.frames, List.length_append, List.length_singleton,
      List.range_succ, List.map_append]
    congr 1
    exact congrArg (fun k => [k]) (Function.update_self l.size _ l.frame)

theorem Building.initLoop {last : ℕ} (h : l.Building nodes last) (n : ℕ) :
    ∃ nodes' last' l', initLoop n nodes.length last l = (last', l') ∧ l'.Building nodes' last' ∧
      nodes'.length = nodes.length + n ∧ l'.tail = l.tail := by
  induction n generalizing l nodes last with
  | zero => exact ⟨nodes, last, l, rfl, h, rfl, rfl⟩
  | succ n ih =>
    obtain ⟨nodes', last', l', hloop, hbuild, hlen, htail⟩ := ih h.link
    rw [List.length_append, List.length_singleton] at hloop hlen
    exact ⟨nodes', last', l', hloop, hbuild, by omega, htail⟩

/-- The frames in order of their numbers. -/
theorem between_lruInit (l : LRU) (s : Sizes) : ∃ nodes, (l.lruInit s).Between nodes ∧
    nodes.map (l.lruInit s).frame = (List.range s.numFrames).map fun k : ℕ => (k : ℤ) := by
  -- the two sentinels
  obtain ⟨l₀, hl₀⟩ : ∃ l₀ : LRU, l₀ = { ((l.lruNodeInit (-1)).2.lruNodeInit (-1)).2 with
      head := l.size, tail := l.size + 1 } := ⟨_, rfl⟩
  have hstart : l₀.Building [] l.size := by
    subst hl₀
    refine ⟨.singleton _, ⟨[], rfl⟩, ?_, ?_, ?_, ?_, ⟨?_, ?_⟩, rfl⟩
    · simp
    · intro y hy
      show y < l.size + 1 + 1
      have : y = l.size + 1 ∨ y = l.size := by simpa using hy
      omega
    · simp [lruNodeInit]
    · simp [lruNodeInit]
    · simp [lruNodeInit]
    · simp [lruNodeInit]
  obtain ⟨nodes, last, l₁, hloop, hbuild, hlen, hsame⟩ := hstart.initLoop s.numFrames
  rw [List.length_nil] at hloop hlen
  rw [Nat.zero_add] at hlen
  have hinit : l.lruInit s = { l₁ with
      next := Function.update l₁.next last (some l₁.tail)
      prev := Function.update l₁.prev l₁.tail (some last) } := by
    have htail : l₁.tail = l.size + 1 := by rw [hsame, hl₀]
    have hrun : l.lruInit s = { (LRU.initLoop s.numFrames 0 l.size l₀).2 with
        next := Function.update (LRU.initLoop s.numFrames 0 l.size l₀).2.next
          (LRU.initLoop s.numFrames 0 l.size l₀).1 (some (l.size + 1))
        prev := Function.update (LRU.initLoop s.numFrames 0 l.size l₀).2.prev (l.size + 1)
          (some (LRU.initLoop s.numFrames 0 l.size l₀).1) } := by
      rw [hl₀]
      rfl
    rw [hrun, hloop, ← htail]
  obtain ⟨before, hlast⟩ := hbuild.last
  obtain ⟨htail, hnodup⟩ := List.nodup_cons.mp hbuild.nodup
  have hframes := hbuild.frames
  rw [hlen] at hframes
  refine ⟨nodes, ?_, by rw [hinit]; exact hframes⟩
  rw [hinit]
  refine ⟨?_, ?_, ?_, ?_, hbuild.sentinels⟩
  · have hjoined := hbuild.joined
    rw [hlast] at hjoined htail hnodup
    have := hjoined.concat htail hnodup
    rwa [← hlast] at this
  · exact List.nodup_append.mpr ⟨hnodup, List.nodup_singleton _, fun y hy z hz => by
      rw [List.mem_singleton.mp hz]
      rintro rfl
      exact htail hy⟩
  · show Function.update l₁.prev l₁.tail (some last) l₁.head = none
    rw [Function.update_of_ne, hbuild.first]
    exact fun heq => htail (by simp [heq])
  · show Function.update l₁.next last (some l₁.tail) l₁.tail = none
    rw [Function.update_of_ne, hbuild.stop]
    rintro rfl
    exact htail (by simp [hlast])

variable {s : Sizes} {r : Recency (Fin s.numFrames)} {frame : Fin s.numFrames}

/-- The list holds the frames in the order `r`. -/
def Represents (l : LRU) (r : Recency (Fin s.numFrames)) : Prop :=
  ∃ nodes, l.Between nodes ∧ nodes.map l.frame = r.order.map fun f => (f.val : ℤ)

theorem represents_lruInit {L W : Type} (l : LRU) (heap : ℕ → PCB s L) (world : W) :
    (l.lruInit s).Represents (memInit heap world).lru := by
  obtain ⟨nodes, hnodes, hframes⟩ := l.between_lruInit s
  refine ⟨nodes, hnodes, hframes.trans ?_⟩
  rw [← List.map_coe_finRange_eq_range, List.map_map]
  rfl

theorem Represents.accessFrame (h : l.Represents r) (hfuel : s.numFrames < fuel)
    (frame : Fin s.numFrames) :
    ∃ l', l.accessFrame fuel frame = .ok l' ∧ l'.Represents (r.touch frame) := by
  obtain ⟨nodes, hnodes, hframes⟩ := h
  -- the frame splits the order, and its node splits the list
  obtain ⟨before, after, hsplit⟩ := List.append_of_mem (r.complete frame)
  have hnodup := r.nodup
  have hlen := r.length_order
  rw [hsplit] at hnodup hlen hframes
  rw [Fintype.card_fin, List.length_append, List.length_cons] at hlen
  have hnot : frame ∉ before := fun hmem =>
    (List.nodup_append.mp hnodup).2.2 frame hmem frame List.mem_cons_self rfl
  rw [List.map_append, List.map_cons] at hframes
  obtain ⟨nodes₁, rest, rfl, hbefore, hrest⟩ := List.map_eq_append_iff.mp hframes
  obtain ⟨x, nodes₂, rfl, hx, hafter⟩ := List.map_eq_cons_iff.mp hrest
  have hne : ∀ y ∈ nodes₁, l.frame y ≠ frame := by
    intro y hy heq
    have hin : (frame.val : ℤ) ∈ nodes₁.map l.frame := heq ▸ List.mem_map_of_mem hy
    rw [hbefore] at hin
    obtain ⟨f, hf, hval⟩ := List.mem_map.mp hin
    have hff : f = frame := Fin.ext (Int.ofNat.inj hval)
    exact hnot (hff ▸ hf)
  have hlen₁ := congrArg List.length hbefore
  rw [List.length_map, List.length_map] at hlen₁
  obtain ⟨l', hrun, hbetween, hsame⟩ := hnodes.accessFrame hx hne (by omega)
    (show nodes₁.length + 1 < fuel by omega)
  refine ⟨l', hrun, _, hbetween, ?_⟩
  have horder : (r.touch frame).order = frame :: (before ++ after) := by
    show frame :: r.order.erase frame = _
    rw [hsplit, List.erase_append_right _ hnot, List.erase_cons_head]
  rw [horder, hsame, List.map_cons, List.map_cons, List.map_append, List.map_append, hx, hbefore,
    hafter]

theorem Represents.getLruFrame (h : l.Represents r) : l.getLruFrame = .ok (r.oldest : ℤ) := by
  obtain ⟨nodes, hnodes, hframes⟩ := h
  have hsplit : r.order.dropLast ++ [r.oldest] = r.order := List.dropLast_append_getLast _
  rw [← hsplit, List.map_append, List.map_singleton] at hframes
  obtain ⟨before, last, rfl, -, hlast⟩ := List.map_eq_append_iff.mp hframes
  obtain ⟨node, rfl, hnode⟩ := List.map_eq_singleton_iff.mp hlast
  have hjoined := hnodes.joined
  rw [List.append_assoc, ← List.cons_append, List.singleton_append] at hjoined
  obtain ⟨-, ⟨-, hprev⟩, -⟩ := List.isChain_append_cons_cons.mp hjoined
  simp only [LRU.getLruFrame, hprev, hnode]

theorem Represents.accessFrames (h : l.Represents r) (hfuel : s.numFrames < fuel)
    (history : List (Fin s.numFrames)) :
    ∃ l', l.accessFrames fuel (history.map fun f => (f.val : ℤ)) = .ok l' ∧
      l'.Represents (history.foldl Recency.touch r) := by
  induction history generalizing l r with
  | nil => exact ⟨l, rfl, h⟩
  | cons frame history ih =>
    obtain ⟨l₁, hrun, h₁⟩ := h.accessFrame hfuel frame
    obtain ⟨l', hrest, h'⟩ := ih h₁
    refine ⟨l', ?_, h'⟩
    simp only [List.map_cons, LRU.accessFrames, hrun, bind, Except.bind]
    exact hrest

/-- The recency order of the machine is the one this list keeps. -/
theorem Represents.machine {L W : Type} {m : Machine s L W} (h : l.Represents m.lru) (hfuel : s.numFrames < fuel) :
    (∃ l', l.accessFrame fuel frame = .ok l' ∧ l'.Represents (m.accessFrame frame).lru) ∧
      l.getLruFrame = .ok (m.getLruFrame : ℤ) :=
  ⟨h.accessFrame hfuel frame, h.getLruFrame⟩

/-- After any history of accesses the frames are between the sentinels, the latest first, and
`get_lru_frame` returns the one that was not accessed for the longest time. -/
theorem lru_order (s : Sizes) (l₀ : LRU) (history : List (Fin s.numFrames)) {fuel : ℕ}
    (hfuel : s.numFrames < fuel) :
    ∃ (l : LRU) (nodes : List ℕ) (order : List (Fin s.numFrames)) (oldest : Fin s.numFrames),
      (l₀.lruInit s).accessFrames fuel (history.map fun f => (f.val : ℤ)) = .ok l ∧
      l.Between nodes ∧ (nodes.map l.frame = order.map fun f => (f.val : ℤ)) ∧
      order.Nodup ∧ (∀ f, f ∈ order) ∧ order.Pairwise (Recency.Before history) ∧
      l.getLruFrame = .ok (oldest : ℤ) ∧
      ∀ f, Recency.lastUse history oldest ≤ Recency.lastUse history f ∧
        (Recency.lastUse history f = 0 → f ≤ oldest) := by
  let heap : ℕ → PCB s Unit := fun _ => ⟨0, "", fun _ => none, 0, fun _ => none, 0, 0, []⟩
  have hsorted : (memInit heap ()).lru.order.Pairwise (· < ·) := List.pairwise_lt_finRange _
  have horder := Recency.pairwise_touches hsorted history
  obtain ⟨l, hrun, hl⟩ := (represents_lruInit l₀ heap ()).accessFrames hfuel history
  obtain ⟨nodes, hnodes, hframes⟩ := id hl
  exact ⟨l, nodes, _, _, hrun, hnodes, hframes, Recency.nodup _, Recency.complete _, horder,
    hl.getLruFrame, Recency.oldest_le horder⟩

def twoFrames : Sizes := ⟨2, 4, by decide, by decide⟩

/-- The first frame is accessed, then the second one. -/
theorem lru_order_two : ∃ (l : LRU) (nodes : List ℕ) (order : List (Fin twoFrames.numFrames))
      (oldest : Fin twoFrames.numFrames),
      ((⟨fun _ => 0, fun _ => none, fun _ => none, 0, 0, 0⟩ : LRU).lruInit twoFrames).accessFrames 3
        (([0, 1] : List (Fin twoFrames.numFrames)).map fun f => (f.val : ℤ)) = .ok l ∧
      l.Between nodes ∧ (nodes.map l.frame = order.map fun f => (f.val : ℤ)) ∧
      order.Nodup ∧ (∀ f, f ∈ order) ∧ order.Pairwise (Recency.Before [0, 1]) ∧
      l.getLruFrame = .ok (oldest : ℤ) ∧
      ∀ f, Recency.lastUse [0, 1] oldest ≤ Recency.lastUse [0, 1] f ∧
        (Recency.lastUse [0, 1] f = 0 → f ≤ oldest) :=
  lru_order twoFrames _ [0, 1] (by decide)

end LRU

end PicoShell.Scheduling
