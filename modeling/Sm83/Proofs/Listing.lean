import Mathlib.Algebra.Group.Nat.Defs
import Mathlib.Data.List.Range
import Mathlib.Data.Nat.Find
import Mathlib.Logic.Function.Iterate
import Mathlib.Order.WellFounded
import Sm83.Listing
import Sm83.Proofs.Fetch

/-!
# Walks, listings and windows

Two loops walk through code by the lengths of its instructions. One collects lines and ends where
memory does, the other collects addresses and ends at a given one. `Memory.walk` is the walk
itself: the address that a number of instructions lead to. It never ends, since no instruction is
empty, and it climbs at every step; so a limit cuts it after a certain number of addresses,
`Memory.count`, and both loops are described by the walk and such a number:

* `walkAddresses_eq` — the second loop meets the addresses of the walk below its limit;
* `linesFrom_eq` — the first loop lists the instructions of the walk as long as they lie in memory
  as a whole.

There are two main statements. `listing_is_walk` says what a listing shows and why it ends: besides
the number of lines asked for, the only bound is the number of instructions that fit into memory,
`Memory.fitting`. `window_is_two_listings` says that a window shows the end of one listing and the
beginning of another. The two loops go by the same lengths, and only an instruction at the very
end of memory is met by one of them and left out by the other.

Both statements need room for as many lines as are asked for, and both fail without it, however few
lines there would be (`listing_without_room`, `window_without_room`).
-/

namespace Sm83

/-- A line takes thirty-two bytes, so there is never room for more than these. -/
theorem Room.lines_lt (room : Room) : room.lines < 2 ^ 58 := by
  have h := room.limited
  omega

namespace Memory

variable {m : Memory} {a limit n : Nat}

/-! ### The walk -/

/-- The address behind the instruction at `a`. -/
def behind (m : Memory) (a : Nat) : Nat := a + m.lengthAt (.ofNat 16 a)

/-- The address that `n` instructions lead to from `a`. -/
def walk (m : Memory) (a n : Nat) : Nat := m.behind^[n] a

theorem lt_behind (m : Memory) (a : Nat) : a < m.behind a :=
  Nat.lt_add_of_pos_right (Instruction.encodedLength_pos _)

@[simp] theorem walk_zero (m : Memory) (a : Nat) : m.walk a 0 = a := rfl

theorem walk_succ (m : Memory) (a n : Nat) : m.walk a (n + 1) = m.walk (m.behind a) n := rfl

theorem walk_succ' (m : Memory) (a n : Nat) : m.walk a (n + 1) = m.behind (m.walk a n) :=
  Function.iterate_succ_apply' m.behind n a

theorem walk_strictMono (m : Memory) (a : Nat) : StrictMono (m.walk a) := by
  refine strictMono_nat_of_lt_succ fun n => ?_
  rw [walk_succ']
  exact m.lt_behind _

theorem exists_le_walk (m : Memory) (a limit : Nat) : ∃ n, limit ≤ m.walk a n :=
  ⟨limit, (m.walk_strictMono a).le_apply⟩

/-- How many addresses below a limit the walk from `a` meets. -/
def count (m : Memory) (a limit : Nat) : Nat := Nat.find (m.exists_le_walk a limit)

/-- The addresses below a limit are the first ones. -/
theorem walk_lt_iff : m.walk a n < limit ↔ n < m.count a limit := by
  rw [count, Nat.lt_find_iff]
  constructor
  · intro h j hj h_le
    have h_mono := (m.walk_strictMono a).monotone hj
    exact Nat.lt_irrefl _ (Nat.lt_of_le_of_lt (Nat.le_trans h_le h_mono) h)
  · intro h
    exact Nat.lt_of_not_le (h n (Nat.le_refl n))

theorem count_le (m : Memory) (a limit : Nat) : m.count a limit ≤ limit :=
  Nat.find_min' _ (m.walk_strictMono a).le_apply

theorem count_eq_zero (h : limit ≤ a) : m.count a limit = 0 := by
  by_contra h_ne
  have h_first : m.walk a 0 < limit := walk_lt_iff.2 (Nat.pos_of_ne_zero h_ne)
  exact Nat.lt_irrefl _ (Nat.lt_of_lt_of_le h_first h)

theorem count_succ (h : a < limit) : m.count a limit = m.count (m.behind a) limit + 1 := by
  refine eq_of_forall_lt_iff fun n => ?_
  rw [← walk_lt_iff]
  cases n with
  | zero => exact iff_of_true h (Nat.zero_lt_succ _)
  | succ n => rw [walk_succ, walk_lt_iff, Nat.succ_lt_succ_iff]

/-! ### The addresses below a limit -/

/-- The addresses below a limit that the walk from `a` meets, in their order. -/
def walked (m : Memory) (a limit : Nat) : List Word :=
  (List.range (m.count a limit)).map fun i => .ofNat 16 (m.walk a i)

@[simp] theorem length_walked (m : Memory) (a limit : Nat) :
    (m.walked a limit).length = m.count a limit := by
  rw [walked, List.length_map, List.length_range]

theorem walked_of_le (h : limit ≤ a) : m.walked a limit = [] := by
  rw [walked, count_eq_zero h]
  rfl

theorem walked_of_lt (h : a < limit) :
    m.walked a limit = .ofNat 16 a :: m.walked (m.behind a) limit := by
  rw [walked, count_succ h, List.range_succ_eq_map, List.map_cons, List.map_map]
  rfl

/-- The second loop meets the addresses of the walk, given steps enough. -/
theorem walkAddresses_eq {steps : Nat} (h : m.count a limit ≤ steps) (found : List Word) :
    m.walkAddresses limit steps a found = (m.walked a limit).reverse ++ found := by
  induction steps generalizing a found with
  | zero =>
    have h_nil : m.walked a limit = [] :=
      List.length_eq_zero_iff.1 (by rw [length_walked]; exact Nat.le_zero.1 h)
    rw [h_nil]
    rfl
  | succ steps ih =>
    rw [walkAddresses]
    split
    · next h_lt =>
      rw [count_succ h_lt] at h
      rw [walked_of_lt h_lt, List.reverse_cons, List.append_assoc]
      exact ih (Nat.le_of_succ_le_succ h) _
    · next h_lt =>
      rw [walked_of_le (Nat.le_of_not_lt h_lt)]
      rfl

theorem preceding_eq (m : Memory) (pc : Word) :
    m.preceding pc = (m.walked 0 pc.toNat).reverse := by
  rw [preceding, walkAddresses_eq (m.count_le 0 pc.toNat), List.append_nil]

/-- The address `b` is met by the walk from `a`. -/
def Meets (m : Memory) (a b : Nat) : Prop := ∃ n, m.walk a n = b

theorem toNat_walk (h : m.walk a n < size) :
    (BitVec.ofNat 16 (m.walk a n)).toNat = m.walk a n :=
  Nat.mod_eq_of_lt h

theorem walk_lt_size (h_limit : limit ≤ size) (h : n < m.count a limit) : m.walk a n < size :=
  Nat.lt_of_lt_of_le (walk_lt_iff.2 h) h_limit

theorem mem_walked (h_limit : limit ≤ size) {b : Word} :
    b ∈ m.walked a limit ↔ b.toNat < limit ∧ m.Meets a b.toNat := by
  rw [walked, List.mem_map]
  constructor
  · rintro ⟨n, hn, rfl⟩
    have hn := List.mem_range.1 hn
    rw [toNat_walk (walk_lt_size h_limit hn)]
    exact ⟨walk_lt_iff.2 hn, n, rfl⟩
  · rintro ⟨h_lt, n, hn⟩
    refine ⟨n, List.mem_range.2 (walk_lt_iff.1 (hn ▸ h_lt)), ?_⟩
    rw [hn, BitVec.ofNat_toNat, BitVec.setWidth_eq]

theorem pairwise_walked (h_limit : limit ≤ size) : (m.walked a limit).Pairwise (· < ·) := by
  rw [walked, List.pairwise_map]
  refine List.pairwise_lt_range.imp_of_mem fun {i j} hi hj h_lt => ?_
  rw [BitVec.lt_def, toNat_walk (walk_lt_size h_limit (List.mem_range.1 hi)),
    toNat_walk (walk_lt_size h_limit (List.mem_range.1 hj))]
  exact m.walk_strictMono a h_lt

/-! ### The instructions that lie in memory -/

/-- How many instructions of the walk from `a` lie in memory as a whole, up to the first that
does not. -/
def fitting (m : Memory) (a : Nat) : Nat := m.count a (size + 1) - 1

/-- An instruction lies in memory if the one behind it may begin at its end. -/
theorem lt_fitting_iff : n < m.fitting a ↔ m.walk a (n + 1) ≤ size := by
  rw [fitting, Nat.lt_sub_iff_add_lt, ← walk_lt_iff, Nat.lt_succ_iff]

theorem le_fitting (h : m.walk a n ≤ size) : n ≤ m.fitting a := by
  cases n with
  | zero => exact Nat.zero_le _
  | succ n => exact lt_fitting_iff.2 h

/-- The line for the instruction at `a`. -/
def line (m : Memory) (a : Nat) : Line := ⟨.ofNat 16 a, m.instruction (.ofNat 16 a)⟩

theorem lineAt?_ofNat (h : a < size) :
    m.lineAt? (.ofNat 16 a) = if m.behind a ≤ size then some (m.line a) else none := by
  have h_toNat : (BitVec.ofNat 16 a).toNat = a := Nat.mod_eq_of_lt h
  rw [lineAt?, instructionAt_eq, h_toNat]
  by_cases h_le : m.behind a ≤ size
  · rw [if_pos (show a + m.lengthAt (.ofNat 16 a) ≤ size from h_le), if_pos h_le]
    rfl
  · rw [if_neg (show ¬a + m.lengthAt (.ofNat 16 a) ≤ size from h_le), if_neg h_le]

/-- One line of a listing: it is there if its instruction lies in memory, and then the listing goes
on behind it. -/
theorem linesFrom_succ_eq (m : Memory) (a n : Nat) :
    m.linesFrom a (n + 1) =
      if m.behind a ≤ size then m.line a :: m.linesFrom (m.behind a) n else [] := by
  have h_length : a + (m.line a).instruction.length = m.behind a :=
    congrArg (a + ·) (m.length_instruction _)
  rw [linesFrom_succ]
  by_cases h : a < size
  · rw [if_pos h, lineAt?_ofNat h]
    by_cases h_le : m.behind a ≤ size
    · rw [if_pos h_le, if_pos h_le, ← h_length]
    · rw [if_neg h_le, if_neg h_le]
  · -- nothing begins behind memory, so nothing ends inside it either
    have h_behind : ¬m.behind a ≤ size := fun h' => h (Nat.lt_of_lt_of_le (m.lt_behind a) h')
    rw [if_neg h, if_neg h_behind]

theorem linesFrom_toNat_succ (m : Memory) (pc : Word) (n : Nat) :
    m.linesFrom pc.toNat (n + 1) =
      if pc.toNat + m.lengthAt pc ≤ size then
        ⟨pc, m.instruction pc⟩ :: m.linesFrom (pc.toNat + m.lengthAt pc) n
      else [] := by
  have h_pc : BitVec.ofNat 16 pc.toNat = pc := BitVec.ofNat_toNat 16 pc
  rw [linesFrom_succ_eq, line, behind, h_pc]

/-- As long as its instructions lie in memory, a listing can be split. -/
theorem linesFrom_add {j : Nat} (h : j ≤ m.fitting a) (n : Nat) :
    m.linesFrom a (j + n)
      = (List.range j).map (fun i => m.line (m.walk a i)) ++ m.linesFrom (m.walk a j) n := by
  induction j generalizing n with
  | zero => rw [Nat.zero_add]; rfl
  | succ j ih =>
    have h_le : m.behind (m.walk a j) ≤ size := m.walk_succ' a j ▸ lt_fitting_iff.1 h
    rw [Nat.add_assoc, ih (Nat.le_of_succ_le h), Nat.add_comm 1 n, linesFrom_succ_eq, if_pos h_le,
      List.range_succ, List.map_append, List.append_assoc, walk_succ']
    rfl

/-- **What is listed.** The lines are those of the walk, as many as there are to be and as lie in
memory. -/
theorem linesFrom_eq (m : Memory) (a n : Nat) :
    m.linesFrom a n
      = (List.range (min n (m.fitting a))).map fun i => m.line (m.walk a i) := by
  rcases Nat.le_total n (m.fitting a) with h | h
  · have h_all := linesFrom_add h 0
    rw [Nat.min_eq_left h]
    rwa [Nat.add_zero, linesFrom_zero, List.append_nil] at h_all
  · rw [Nat.min_eq_right h]
    obtain ⟨d, rfl⟩ := Nat.exists_eq_add_of_le h
    -- the instruction behind those that fit ends the listing, if it is asked for
    have h_end : m.linesFrom (m.walk a (m.fitting a)) d = [] := by
      cases d with
      | zero => rfl
      | succ d =>
        rw [linesFrom_succ_eq, ← walk_succ', if_neg]
        exact fun h_le => Nat.lt_irrefl _ (lt_fitting_iff.2 h_le)
    rw [linesFrom_add (Nat.le_refl _), h_end, List.append_nil]

/-! ### The addresses of a listing -/

theorem map_address_linesFrom (m : Memory) (a n : Nat) :
    (m.linesFrom a n).map Line.address
      = (List.range (min n (m.fitting a))).map fun i => .ofNat 16 (m.walk a i) := by
  rw [linesFrom_eq, List.map_map]
  rfl

theorem walk_lt_of_lt_fitting (h : n < m.fitting a) : m.walk a n < size :=
  Nat.lt_of_lt_of_le (m.walk_strictMono a (Nat.lt_succ_self n)) (lt_fitting_iff.1 h)

/-- The addresses of a listing are those of the walk. -/
theorem exists_walk_of_mem {b : Word} (h : b ∈ (m.linesFrom a n).map Line.address) :
    ∃ i < n, m.walk a i = b.toNat := by
  rw [map_address_linesFrom, List.mem_map] at h
  obtain ⟨i, hi, rfl⟩ := h
  have hi := List.mem_range.1 hi
  refine ⟨i, Nat.lt_of_lt_of_le hi (Nat.min_le_left _ _), (toNat_walk ?_).symm⟩
  exact walk_lt_of_lt_fitting (Nat.lt_of_lt_of_le hi (Nat.min_le_right _ _))

theorem le_of_mem_address {b : Word} (h : b ∈ (m.linesFrom a n).map Line.address) :
    a ≤ b.toNat := by
  obtain ⟨i, -, hi⟩ := exists_walk_of_mem h
  rw [← hi]
  exact (m.walk_strictMono a).monotone (Nat.zero_le i)

/-- The addresses of a listing increase. -/
theorem pairwise_address_linesFrom (m : Memory) (a n : Nat) :
    ((m.linesFrom a n).map Line.address).Pairwise (· < ·) := by
  rw [map_address_linesFrom, List.pairwise_map]
  have h_toNat {i : Nat} (hi : i ∈ List.range (min n (m.fitting a))) :
      (BitVec.ofNat 16 (m.walk a i)).toNat = m.walk a i := by
    have hi := Nat.lt_of_lt_of_le (List.mem_range.1 hi) (Nat.min_le_right _ _)
    exact toNat_walk (walk_lt_of_lt_fitting hi)
  refine List.pairwise_lt_range.imp_of_mem fun {i j} hi hj h_lt => ?_
  rw [BitVec.lt_def, h_toNat hi, h_toNat hj]
  exact m.walk_strictMono a h_lt

/-! ### The end of a listing -/

theorem length_linesFrom (m : Memory) (a n : Nat) :
    (m.linesFrom a n).length = min n (m.fitting a) := by
  rw [linesFrom_eq, List.length_map, List.length_range]

theorem walk_fitting_le (h : a ≤ size) : m.walk a (m.fitting a) ≤ size := by
  cases h_fitting : m.fitting a with
  | zero => exact h
  | succ k => exact lt_fitting_iff.1 (h_fitting ▸ Nat.lt_succ_self k)

/-- Behind the instructions that lie in memory the walk has come to the end of memory, or to an
instruction that runs past it. -/
theorem walk_fitting (h : a ≤ size) :
    m.walk a (m.fitting a) = size ∨
      m.walk a (m.fitting a) < size ∧ size < m.behind (m.walk a (m.fitting a)) := by
  refine (Nat.lt_or_eq_of_le (walk_fitting_le h)).symm.imp_right fun h_lt => ⟨h_lt, ?_⟩
  rw [← walk_succ', ← Nat.not_le, ← lt_fitting_iff]
  exact Nat.lt_irrefl _

theorem linesFrom_of_size_le (h : size ≤ a) (n : Nat) : m.linesFrom a n = [] := by
  cases n with
  | zero => rfl
  | succ n => rw [linesFrom_succ, if_neg (Nat.not_lt.2 h)]

/-- The lines that are listed are those of a shorter listing, and what is listed behind it if the
shorter one is full and memory goes on there. -/
theorem linesFrom_add_eq (m : Memory) (a j i : Nat) :
    m.linesFrom a (j + i) = m.linesFrom a j ++
      if (m.linesFrom a j).length = j ∧ m.walk a j < size then
        m.linesFrom (BitVec.ofNat 16 (m.walk a j)).toNat i
      else [] := by
  rw [length_linesFrom]
  rcases Nat.lt_or_ge (m.fitting a) j with h | h
  · -- the shorter listing has come to its end already
    have h_end : min (j + i) (m.fitting a) = min j (m.fitting a) := by omega
    rw [if_neg fun h_full => by omega, List.append_nil, linesFrom_eq, linesFrom_eq, h_end]
  · have h_first := linesFrom_add h 0
    rw [Nat.add_zero, linesFrom_zero, List.append_nil] at h_first
    rw [linesFrom_add h, ← h_first, Nat.min_eq_left h]
    by_cases h_lt : m.walk a j < size
    · rw [if_pos ⟨rfl, h_lt⟩, toNat_walk h_lt]
    · rw [if_neg fun h_full => h_lt h_full.2, linesFrom_of_size_le (Nat.not_lt.1 h_lt)]

/-- Each line begins where the one in front of it ends. -/
theorem isChain_linesFrom (m : Memory) (a n : Nat) :
    (m.linesFrom a n).IsChain fun l l' =>
      l'.address.toNat = l.address.toNat + m.lengthAt l.address := by
  rw [linesFrom_eq, List.isChain_map, List.isChain_range]
  intro i hi
  have h_next : i + 1 < m.fitting a := by omega
  calc (m.line (m.walk a (i + 1))).address.toNat
      = m.walk a (i + 1) := toNat_walk (walk_lt_of_lt_fitting h_next)
    _ = m.behind (m.walk a i) := m.walk_succ' a i
    _ = (m.line (m.walk a i)).address.toNat + m.lengthAt (m.line (m.walk a i)).address := by
      rw [behind, line, toNat_walk (walk_lt_of_lt_fitting (Nat.lt_of_succ_lt h_next))]

/-- The text of a line is that of the instruction at its address. -/
theorem assemblyAt_walk (h : n < m.fitting a) :
    m.assemblyAt (.ofNat 16 (m.walk a n)) = .ok (m.line (m.walk a n)).text := by
  have h_fits : m.behind (m.walk a n) ≤ size := m.walk_succ' a n ▸ lt_fitting_iff.1 h
  rw [assemblyAt_eq, toNat_walk (walk_lt_of_lt_fitting h)]
  exact if_pos h_fits

/-! ### Listings -/

section Room

variable {room : Room} {start : Word}

theorem listing_of_le (h : n ≤ room.lines) :
    m.listing room start n = some (m.linesFrom start.toNat n) :=
  if_pos h

theorem listing_of_lt (h : room.lines < n) : m.listing room start n = none :=
  if_neg (Nat.not_le.2 h)

end Room

/-- **A listing is the beginning of a walk**, if there is room for the lines that are asked for. Let
the first `k` instructions of the walk from `start` be those that lie in memory as a whole. Of `n`
lines that are asked for, a listing has the first `min n k`, each with its address, which never
wraps around, and its text. So the addresses begin at `start`, they increase, and each of them is
the end of the instruction before it. Fewer than `n` lines mean that the walk has come to the end of
memory, or to an instruction that runs past it. Hence a listing can be split wherever its first part
is full. -/
theorem listing_is_walk (m : Memory) (room : Room) (start : Word) (n : Nat)
    (h : n ≤ room.lines) :
    ∃ (lines : List Line) (k : Nat), m.listing room start n = some lines ∧
      (∀ i, i < k ↔ m.walk start.toNat (i + 1) ≤ 0x10000) ∧
      lines.map (fun l => (l.address.toNat, Except.ok l.text))
        = (List.range (min n k)).map (fun i =>
            (m.walk start.toNat i, m.assemblyAt (.ofNat 16 (m.walk start.toNat i)))) ∧
      (∀ l ∈ lines.head?, l.address = start) ∧
      (lines.map Line.address).Pairwise (· < ·) ∧
      (lines.IsChain fun l l' => l'.address.toNat = l.address.toNat + m.lengthAt l.address) ∧
      (lines.length < n →
        let e := m.walk start.toNat lines.length
        e = 0x10000 ∨ e < 0x10000 ∧ 0x10000 < e + m.lengthAt (.ofNat 16 e)) ∧
      ∀ j i, j + i = n → ∃ first rest, m.listing room start j = some first ∧
        m.listing room (.ofNat 16 (m.walk start.toNat j)) i = some rest ∧
        lines = first ++
          if first.length = j ∧ m.walk start.toNat j < 0x10000 then rest else [] := by
  refine ⟨_, m.fitting start.toNat, listing_of_le h, fun i => lt_fitting_iff, ?_, ?_,
    m.pairwise_address_linesFrom _ n, m.isChain_linesFrom _ n, fun h_short => ?_, ?_⟩
  · rw [linesFrom_eq, List.map_map]
    refine List.map_congr_left fun i hi => ?_
    have hi := Nat.lt_of_lt_of_le (List.mem_range.1 hi) (Nat.min_le_right _ _)
    rw [assemblyAt_walk hi]
    exact congrArg (·, _) (toNat_walk (walk_lt_of_lt_fitting hi))
  · intro l hl
    cases n with
    | zero => cases hl
    | succ n =>
      rw [linesFrom_toNat_succ] at hl
      split at hl
      · obtain rfl := Option.some.inj hl
        rfl
      · cases hl
  · rw [length_linesFrom] at h_short ⊢
    rw [Nat.min_eq_right (by omega)]
    exact walk_fitting (Nat.le_of_lt start.isLt)
  · rintro j i rfl
    have h_first : j ≤ room.lines := Nat.le_trans (Nat.le_add_right j i) h
    have h_rest : i ≤ room.lines := Nat.le_trans (Nat.le_add_left i j) h
    exact ⟨_, _, listing_of_le h_first, listing_of_le h_rest, m.linesFrom_add_eq _ j i⟩

/-- As many lines are asked for as there is room for. The last address holds a load without its
operand, so only two are shown. -/
theorem listing_is_walk_at_end :
    let m := zero.set 0xFFFF 0x3E
    ∃ lines, m.listing .ofProcess 0xFFFD (2 ^ 42) = some lines ∧
      lines.map (fun l => (l.address.toNat, Except.ok l.text))
        = [(0xFFFD, (.ok "NOP" : Except Fault String)), (0xFFFE, .ok "NOP")] := by
  intro m
  obtain ⟨lines, k, h_lines, h_k, h_map, -⟩ :=
    listing_is_walk m .ofProcess 0xFFFD (2 ^ 42) (by decide)
  have h_two : 1 < k := (h_k 1).2 (by decide)
  have h_three : ¬2 < k := fun h => absurd ((h_k 2).1 h) (by decide)
  obtain rfl : k = 2 := by omega
  exact ⟨lines, h_lines, h_map.trans (by decide)⟩

/-- **Without room a listing comes to nothing.** The last byte of zeroed memory would make a single
line. If `2 ^ 57` are asked for, there is no room for them in a process, and for `2 ^ 58` there is
none anywhere. -/
theorem listing_without_room :
    zero.linesFrom 0xFFFF (2 ^ 57) = [⟨0xFFFF, .nop⟩] ∧
      zero.listing .ofProcess 0xFFFF (2 ^ 57) = none ∧
      ¬∃ (room : Room) (lines : List Line), zero.listing room 0xFFFF (2 ^ 58) = some lines := by
  refine ⟨?_, listing_of_lt (by decide), ?_⟩
  · have h_end : zero.linesFrom (zero.behind 0xFFFF) (2 ^ 57 - 1) = [] :=
      linesFrom_of_size_le (by decide) _
    calc zero.linesFrom 0xFFFF (2 ^ 57)
        = zero.line 0xFFFF :: zero.linesFrom (zero.behind 0xFFFF) (2 ^ 57 - 1) :=
          (zero.linesFrom_succ_eq 0xFFFF (2 ^ 57 - 1)).trans (if_pos (by decide))
      _ = [⟨0xFFFF, .nop⟩] := by rw [h_end]; decide
  · rintro ⟨room, lines, h⟩
    rw [listing_of_lt room.lines_lt] at h
    cases h

/-! ### Windows -/

/-- Where nothing is kept behind an element that is left out, what is left out is at the end, and
it makes no difference whether the first ones are dropped before or after. -/
theorem filterMap_drop {α β : Type} {f : α → Option β} {l : List α}
    (h : l.Pairwise fun x y => f x = none → f y = none) (j : Nat) :
    (l.drop j).filterMap f = (l.filterMap f).drop j := by
  induction l generalizing j with
  | nil => rw [List.drop_nil, List.filterMap_nil, List.drop_nil]
  | cons x l ih =>
    obtain ⟨h_rest, h⟩ := List.pairwise_cons.1 h
    cases j with
    | zero => rfl
    | succ j =>
      rw [List.drop_succ_cons, ih h]
      cases hx : f x with
      | some y => rw [List.filterMap_cons_some hx, List.drop_succ_cons]
      | none =>
        have h_nil : l.filterMap f = [] :=
          List.filterMap_eq_nil_iff.2 fun y hy => h_rest y hy hx
        rw [List.filterMap_cons_none hx, h_nil, List.drop_nil, List.drop_nil]

/-- The two loops see the same: what a listing shows of the addresses below a limit are those whose
instructions lie in memory. -/
theorem filterMap_walked (h_limit : limit ≤ size) :
    (m.walked a limit).filterMap m.lineAt? = m.linesFrom a (m.count a limit) := by
  induction h_count : m.count a limit generalizing a with
  | zero =>
    have h_nil : m.walked a limit = [] :=
      List.length_eq_zero_iff.1 (by rw [length_walked, h_count])
    rw [h_nil]
    rfl
  | succ n ih =>
    have h_first : 0 < m.count a limit := by rw [h_count]; exact Nat.zero_lt_succ n
    have h_lt : a < limit := walk_lt_iff.2 h_first
    have h_rest : m.count (m.behind a) limit = n :=
      Nat.succ.inj ((count_succ h_lt).symm.trans h_count)
    have h_line := lineAt?_ofNat (m := m) (Nat.lt_of_lt_of_le h_lt h_limit)
    rw [walked_of_lt h_lt, linesFrom_succ_eq]
    by_cases h_le : m.behind a ≤ size
    · rw [if_pos h_le] at h_line ⊢
      rw [List.filterMap_cons_some h_line, ih h_rest]
    · -- the instruction runs past the end of memory, so the walk has passed the limit behind it
      rw [if_neg h_le] at h_line ⊢
      have h_past : limit ≤ m.behind a := Nat.le_trans h_limit (Nat.le_of_not_le h_le)
      rw [List.filterMap_cons_none h_line, walked_of_le h_past]
      rfl

/-- Below a limit only the last instruction may run past the end of memory. -/
theorem pairwise_lineAt?_walked (h_limit : limit ≤ size) :
    (m.walked a limit).Pairwise fun b b' => m.lineAt? b = none → m.lineAt? b' = none := by
  rw [walked, List.pairwise_map]
  refine List.pairwise_lt_range.imp_of_mem fun {i j} hi hj h_lt h_none => ?_
  -- the first of two instructions ends where the second begins, or before
  have h_le : m.behind (m.walk a i) ≤ size := by
    have h_size := walk_lt_size h_limit (List.mem_range.1 hj)
    have h_mono := (m.walk_strictMono a).monotone (Nat.succ_le_of_lt h_lt)
    rw [walk_succ'] at h_mono
    exact Nat.le_trans h_mono (Nat.le_of_lt h_size)
  rw [lineAt?_ofNat (walk_lt_size h_limit (List.mem_range.1 hi)), if_pos h_le] at h_none
  cases h_none

/-- What is shown ahead of `pc` is the end of a listing. -/
theorem linesAhead_eq (m : Memory) (pc : Word) (before : Nat) :
    m.linesAhead pc before
      = (m.linesFrom 0 (m.count 0 pc.toNat)).drop (m.count 0 pc.toNat - before) := by
  have h_limit : pc.toNat ≤ size := Nat.le_of_lt pc.isLt
  rw [linesAhead, preceding_eq, List.take_reverse, List.reverse_reverse, length_walked,
    filterMap_drop (pairwise_lineAt?_walked h_limit), filterMap_walked h_limit]

/-- The lines of a window, whether or not there is room for them. -/
def linesAround (m : Memory) (pc : Word) (before after : Nat) : List Line :=
  m.linesAhead pc before ++ m.linesFrom pc.toNat (after + 1)

section Window

variable {pc : Word} {before after : Nat} {room : Room}

theorem window_of_le (h : after + 1 ≤ room.lines) :
    m.window room pc before after = some (m.linesAround pc before after) := by
  rw [window, listing_of_le h]
  rfl

theorem window_of_lt (h : room.lines < after + 1) : m.window room pc before after = none := by
  rw [window, listing_of_lt h]
  rfl

/-- The instructions in front of the one at `pc` lie below it. -/
theorem lt_of_mem_linesAhead {b : Word} (h : b ∈ (m.linesAhead pc before).map Line.address) :
    b < pc := by
  rw [linesAhead_eq, List.map_drop] at h
  obtain ⟨i, hi, h_walk⟩ := exists_walk_of_mem (List.mem_of_mem_drop h)
  rw [BitVec.lt_def, ← h_walk]
  exact walk_lt_iff.2 hi

theorem pairwise_address_linesAround :
    ((m.linesAround pc before after).map Line.address).Pairwise (· < ·) := by
  rw [linesAround, List.map_append, List.pairwise_append]
  refine ⟨?_, m.pairwise_address_linesFrom _ _, fun b hb b' hb' => ?_⟩
  · rw [linesAhead_eq, List.map_drop]
    exact (m.pairwise_address_linesFrom _ _).sublist (List.drop_sublist _ _)
  · exact BitVec.lt_def.2
      (Nat.lt_of_lt_of_le (BitVec.lt_def.1 (lt_of_mem_linesAhead hb)) (le_of_mem_address hb'))

/-- At `pc` itself a window has one line if the instruction there lies in memory, and none
otherwise. -/
theorem filter_address_linesAround :
    (m.linesAround pc before after).filter (·.address = pc) =
      if pc.toNat + m.lengthAt pc ≤ size then [⟨pc, m.instruction pc⟩] else [] := by
  have h_before : (m.linesAhead pc before).filter (·.address = pc) = [] := by
    refine List.filter_eq_nil_iff.2 fun l hl h_address => ?_
    have h_lt := lt_of_mem_linesAhead (List.mem_map_of_mem hl)
    exact BitVec.lt_irrefl pc (of_decide_eq_true h_address ▸ h_lt)
  rw [linesAround, List.filter_append, h_before, List.nil_append, linesFrom_toNat_succ]
  split
  · have h_after : (m.linesFrom (pc.toNat + m.lengthAt pc) after).filter (·.address = pc)
        = [] := by
      refine List.filter_eq_nil_iff.2 fun l hl h_address => ?_
      have h_le := le_of_mem_address (List.mem_map_of_mem hl)
      rw [of_decide_eq_true h_address] at h_le
      have h_pos : 0 < m.lengthAt pc := Instruction.encodedLength_pos _
      omega
    rw [List.filter_cons, if_pos (decide_eq_true rfl), h_after]
  · rfl

theorem count_address_linesAround :
    ((m.linesAround pc before after).map Line.address).count pc =
      if pc.toNat + m.lengthAt pc ≤ size then 1 else 0 := by
  have h_filter : ((m.linesAround pc before after).map Line.address).count pc
      = ((m.linesAround pc before after).filter (·.address = pc)).length := by
    rw [List.count_eq_countP, List.countP_map, List.countP_eq_length_filter]
    rfl
  rw [h_filter, filter_address_linesAround]
  split <;> rfl

/-- Where the walk from the start of memory comes upon `pc`, the two listings of a window are
one. -/
theorem linesAround_infix (h : m.Meets 0 pc.toNat) :
    m.linesAround pc before after <:+: m.linesFrom 0 (m.count 0 pc.toNat + after + 1) := by
  obtain ⟨n, hn⟩ := h
  have h_count : m.count 0 pc.toNat = n := by
    refine eq_of_forall_lt_iff fun i => ?_
    rw [← walk_lt_iff, ← hn, (m.walk_strictMono 0).lt_iff_lt]
  have h_fits : n ≤ m.fitting 0 := le_fitting (hn ▸ Nat.le_of_lt pc.isLt)
  have h_all : m.linesFrom 0 (n + after + 1)
      = m.linesFrom 0 n ++ m.linesFrom pc.toNat (after + 1) := by
    have h_first := linesFrom_add h_fits 0
    rw [Nat.add_zero, linesFrom_zero, List.append_nil] at h_first
    rw [Nat.add_assoc, h_first, ← hn]
    exact linesFrom_add h_fits (after + 1)
  rw [linesAround, linesAhead_eq, h_count, h_all]
  refine List.IsSuffix.isInfix ⟨(m.linesFrom 0 n).take (n - before), ?_⟩
  rw [← List.append_assoc, List.take_append_drop]

/-- The addresses below `pc` are not so many that their lines could lack room. -/
theorem count_le_room (m : Memory) (pc : Word) (room : Room) :
    m.count 0 pc.toNat ≤ room.lines :=
  calc m.count 0 pc.toNat
      ≤ pc.toNat := m.count_le 0 pc.toNat
    _ ≤ size := Nat.le_of_lt pc.isLt
    _ ≤ room.lines := room.enough

/-- **A window is two listings**, if there is room for the second one. Let `w` be the addresses
below `pc` that a walk from the start of memory meets. A window at `pc` shows the end of a listing
of as many instructions from the start of memory, and then a listing from `pc` on. So its addresses
increase, `pc` is one of them exactly if the instruction there lies in memory, and where the walk
comes upon `pc` itself, the window is a piece of one listing, if that has room in its turn. -/
theorem window_is_two_listings (m : Memory) (room : Room) (pc : Word) (before after : Nat)
    (h : after + 1 ≤ room.lines) :
    ∃ (w : List Word) (lines ahead behind : List Line),
      w.Pairwise (· < ·) ∧ (∀ b, b ∈ w ↔ b < pc ∧ m.Meets 0 b.toNat) ∧
      m.listing room 0 w.length = some ahead ∧ m.listing room pc (after + 1) = some behind ∧
      m.window room pc before after = some lines ∧
      lines = ahead.drop (w.length - min before w.length) ++ behind ∧
      (lines.map Line.address).Pairwise (· < ·) ∧
      (lines.map Line.address).count pc =
        (if pc.toNat + m.lengthAt pc ≤ 0x10000 then 1 else 0) ∧
      (m.Meets 0 pc.toNat → w.length + after + 1 ≤ room.lines →
        ∃ all, m.listing room 0 (w.length + after + 1) = some all ∧ lines <:+: all) := by
  have h_limit : pc.toNat ≤ size := Nat.le_of_lt pc.isLt
  have h_length := m.length_walked 0 pc.toNat
  refine ⟨m.walked 0 pc.toNat, m.linesAround pc before after, m.linesFrom 0 (m.count 0 pc.toNat),
    m.linesFrom pc.toNat (after + 1), pairwise_walked h_limit, fun b => mem_walked h_limit, ?_,
    listing_of_le h, window_of_le h, ?_, pairwise_address_linesAround,
    count_address_linesAround, ?_⟩
  · rw [h_length]
    exact listing_of_le (count_le_room m pc room)
  · -- dropping all but the last few of `w`, or all but as many as there are, is the same
    have h_drop (k : Nat) : k - min before k = k - before := by omega
    rw [h_length, h_drop, linesAround, linesAhead_eq]
  · rw [h_length]
    exact fun h_meets h_room => ⟨_, listing_of_le h_room, linesAround_infix h_meets⟩

/-- A load at zero lies over the address that is asked for, and both are shown. There is room for
one line more than are asked for behind it. -/
theorem window_is_two_listings_over_address :
    let m := zero.set 0 0x3E
    ∃ lines, m.window .ofProcess 1 3 (2 ^ 42 - 1) = some lines ∧
      (lines.map Line.address).count 1 = 1 := by
  intro m
  obtain ⟨w, lines, ahead, behind, -, -, -, -, h_lines, -, -, h_count, -⟩ :=
    window_is_two_listings m .ofProcess 1 3 (2 ^ 42 - 1) (by decide)
  exact ⟨lines, h_lines, h_count.trans (by decide)⟩

/-- **Without room a window comes to nothing**, although the last byte of zeroed memory alone would
be shown. With `2 ^ 57` lines to make room for that is so in a process, and with `2 ^ 58` it is so
everywhere. -/
theorem window_without_room :
    zero.linesAround 0xFFFF 0 (2 ^ 57 - 1) = [⟨0xFFFF, .nop⟩] ∧
      zero.window .ofProcess 0xFFFF 0 (2 ^ 57 - 1) = none ∧
      ¬∃ (room : Room) (lines : List Line),
        zero.window room 0xFFFF 0 (2 ^ 58 - 1) = some lines := by
  refine ⟨?_, window_of_lt (by decide), ?_⟩
  · rw [linesAround, linesFrom_succ_eq, if_pos (by decide), linesFrom_of_size_le (by decide)]
    decide
  · rintro ⟨room, lines, h⟩
    have h_none : zero.window room 0xFFFF 0 (2 ^ 58 - 1) = none := window_of_lt room.lines_lt
    rw [h_none] at h
    cases h

end Window

end Memory

end Sm83
