import Mathlib.Algebra.Ring.Int.Defs
import Mathlib.Algebra.Ring.Nat
import PowerAsm.Word

/-! Memory by bytes. A value of some bytes is loaded from an address and stored at one, in
either byte order. Addresses wrap around, so places are told apart by their distances from
a common base. -/
namespace PowerAsm.Proofs

/-- The contents of every byte, by its address of `w` bits. -/
abbrev Memory (w : Nat) := BitVec w → BitVec 8

namespace Memory

/-- The value whose bytes are `f 0`, `f 1` and so on, from the least significant one. -/
def ofBytes (f : Nat → BitVec 8) : (n : Nat) → BitVec (8 * n)
  | 0 => 0#0
  | n + 1 => ofBytes (fun k => f (k + 1)) n ++ f 0

/-- How far behind its address the byte `k` of a value of `n` bytes lies. The least
significant byte comes last, or first. -/
def lane : ByteOrder → Nat → Nat → Nat
  | .big, n, k => n - 1 - k
  | .little, _, k => k

variable {w : Nat}

def load (order : ByteOrder) (m : Memory w) (a : BitVec w) (n : Nat) : BitVec (8 * n) :=
  ofBytes (fun k => m (a + BitVec.ofNat w (lane order n k))) n

def store (order : ByteOrder) (m : Memory w) (a : BitVec w) (n : Nat) (v : BitVec (8 * n)) :
    Memory w := fun x =>
  if (x - a).toNat < n then v.extractLsb' (8 * lane order n (x - a).toNat) 8 else m x

theorem lane_lt (order : ByteOrder) {n k : Nat} (inside : k < n) : lane order n k < n := by
  cases order <;> simp only [lane] <;> omega

theorem lane_lane (order : ByteOrder) {n k : Nat} (inside : k < n) :
    lane order n (lane order n k) = k := by
  cases order <;> simp only [lane]
  omega

theorem getLsbD_ofBytes (f : Nat → BitVec 8) {n j : Nat} (inside : j < 8 * n) :
    (ofBytes f n).getLsbD j = (f (j / 8)).getLsbD (j % 8) := by
  induction n generalizing f j with
  | zero => omega
  | succ n ih =>
    rw [ofBytes, BitVec.getLsbD_append]
    by_cases low : j < 8
    · rw [if_pos low, Nat.div_eq_of_lt low, Nat.mod_eq_of_lt low]
    · rw [if_neg low, ih _ (by omega)]
      have next : (j - 8) / 8 + 1 = j / 8 := by omega
      have rest : (j - 8) % 8 = j % 8 := by omega
      rw [next, rest]

theorem ofBytes_congr {f g : Nat → BitVec 8} {n : Nat} (same : ∀ k < n, f k = g k) :
    ofBytes f n = ofBytes g n := by
  apply BitVec.eq_of_getLsbD_eq
  intro j inside
  rw [getLsbD_ofBytes f inside, getLsbD_ofBytes g inside, same (j / 8) (by omega)]

theorem ofBytes_extract {n : Nat} (v : BitVec (8 * n)) :
    ofBytes (fun k => v.extractLsb' (8 * k) 8) n = v := by
  apply BitVec.eq_of_getLsbD_eq
  intro j inside
  have whole : 8 * (j / 8) + j % 8 = j := by omega
  have byte : j % 8 < 8 := by omega
  rw [getLsbD_ofBytes _ inside, BitVec.getLsbD_extractLsb', whole, decide_eq_true byte,
    Bool.true_and]

theorem extract_ofBytes (f : Nat → BitVec 8) {n k : Nat} (inside : k < n) :
    (ofBytes f n).extractLsb' (8 * k) 8 = f k := by
  apply BitVec.eq_of_getLsbD_eq
  intro j small
  have byte : (8 * k + j) / 8 = k := by omega
  have bit : (8 * k + j) % 8 = j := by omega
  rw [BitVec.getLsbD_extractLsb', getLsbD_ofBytes f (by omega), byte, bit, decide_eq_true small,
    Bool.true_and]

/-- A load depends on the bytes it reads only. -/
theorem load_congr {order : ByteOrder} {m m' : Memory w} {a : BitVec w} {n : Nat}
    (same : ∀ i < n, m' (a + BitVec.ofNat w i) = m (a + BitVec.ofNat w i)) :
    load order m' a n = load order m a n :=
  ofBytes_congr fun k inside => same (lane order n k) (lane_lt order inside)

section Stores
variable {order : ByteOrder} {m : Memory w} {base : BitVec w} {o p n k : Nat}

private theorem distance (first : o < 2 ^ w) (second : p < 2 ^ w) :
    (base + BitVec.ofNat w p - (base + BitVec.ofNat w o)).toNat = (2 ^ w - o + p) % 2 ^ w := by
  have gap : base + BitVec.ofNat w p - (base + BitVec.ofNat w o) =
      BitVec.ofNat w p - BitVec.ofNat w o := by grind
  rw [gap, BitVec.toNat_sub, BitVec.toNat_ofNat, BitVec.toNat_ofNat, Nat.mod_eq_of_lt first,
    Nat.mod_eq_of_lt second]

theorem store_inside {v : BitVec (8 * n)} (above : o ≤ p) (below : p < o + n)
    (room : o + n ≤ 2 ^ w) :
    store order m (base + BitVec.ofNat w o) n v (base + BitVec.ofNat w p) =
      v.extractLsb' (8 * lane order n (p - o)) 8 := by
  have gap : (base + BitVec.ofNat w p - (base + BitVec.ofNat w o)).toNat = p - o := by
    have around : 2 ^ w - o + p = p - o + 2 ^ w := by omega
    rw [distance (by omega) (by omega), around, Nat.add_mod_right, Nat.mod_eq_of_lt (by omega)]
  rw [store, gap, if_pos (by omega)]

theorem store_outside {v : BitVec (8 * n)} (outside : p < o ∨ o + n ≤ p) (room : o + n ≤ 2 ^ w)
    (inside : p < 2 ^ w) :
    store order m (base + BitVec.ofNat w o) n v (base + BitVec.ofNat w p) =
      m (base + BitVec.ofNat w p) := by
  by_cases empty : n = 0
  · subst empty
    rw [store, if_neg (Nat.not_lt_zero _)]
  · refine if_neg ?_
    rw [distance (by omega) inside]
    obtain before | behind := outside
    · rw [Nat.mod_eq_of_lt (by omega)]
      omega
    · have around : 2 ^ w - o + p = p - o + 2 ^ w := by omega
      rw [around, Nat.add_mod_right, Nat.mod_eq_of_lt (by omega)]
      omega

private theorem byte_place : base + BitVec.ofNat w o + BitVec.ofNat w k =
    base + BitVec.ofNat w (o + k) := by
  rw [BitVec.add_assoc, BitVec.ofNat_add]

theorem load_store {v : BitVec (8 * n)} (room : o + n ≤ 2 ^ w) :
    load order (store order m (base + BitVec.ofNat w o) n v) (base + BitVec.ofNat w o) n = v := by
  rw [load]
  refine (ofBytes_congr fun k inside => ?_).trans (ofBytes_extract v)
  have below := lane_lt order inside
  rw [byte_place, store_inside (by omega) (by omega) room, Nat.add_sub_cancel_left,
    lane_lane order inside]

/-- Storing what is loaded elsewhere copies it byte by byte. -/
theorem store_load {a : BitVec w} (above : o ≤ p) (below : p < o + n) (room : o + n ≤ 2 ^ w) :
    store order m (base + BitVec.ofNat w o) n (load order m a n) (base + BitVec.ofNat w p) =
      m (a + BitVec.ofNat w (p - o)) := by
  have inside : p - o < n := by omega
  rw [store_inside above below room, load, extract_ofBytes _ (lane_lt order inside),
    lane_lane order inside]

/-- A store elsewhere does not show. -/
theorem load_store_of_apart {l : Nat} {v : BitVec (8 * n)} (apart : p + l ≤ o ∨ o + n ≤ p)
    (room : o + n ≤ 2 ^ w) (inside : p + l ≤ 2 ^ w) :
    load order (store order m (base + BitVec.ofNat w o) n v) (base + BitVec.ofNat w p) l =
      load order m (base + BitVec.ofNat w p) l := by
  refine load_congr fun i below => ?_
  rw [byte_place]
  exact store_outside (by omega) room (by omega)

end Stores

/-- A value that is kept at some distance from a base. -/
structure Kept where
  offset : Nat
  bytes : Nat
  value : BitVec (8 * bytes)

namespace Kept

/-- The distance of the first byte behind the value. -/
def stop (x : Kept) : Nat := x.offset + x.bytes

def Apart (x y : Kept) : Prop := x.stop ≤ y.offset ∨ y.stop ≤ x.offset

/-- All values lie between two distances. -/
def Within (low high : Nat) (xs : List Kept) : Prop := ∀ x ∈ xs, low ≤ x.offset ∧ x.stop ≤ high

theorem Within.mono {low high low' high' : Nat} {xs : List Kept} (within : Within low high xs)
    (down : low' ≤ low) (up : high ≤ high') : Within low' high' xs := by
  intro x member
  obtain ⟨above, below⟩ := within x member
  exact ⟨Nat.le_trans down above, Nat.le_trans below up⟩

theorem Within.append {low high : Nat} {xs ys : List Kept} (first : Within low high xs)
    (second : Within low high ys) : Within low high (xs ++ ys) := by
  intro x member
  obtain left | right := List.mem_append.mp member
  · exact first x left
  · exact second x right

theorem Within.cons {low high o n : Nat} {v : BitVec (8 * n)} {xs : List Kept} (above : low ≤ o)
    (below : o + n ≤ high) (rest : Within low high xs) : Within low high (⟨o, n, v⟩ :: xs) := by
  intro y member
  obtain rfl | later := List.mem_cons.mp member
  · exact ⟨above, below⟩
  · exact rest y later

theorem within_nil {low high : Nat} : Within low high [] := nofun

/-- A value in front of all others, or behind all of them. -/
theorem pairwise_cons {low high o n : Nat} {v : BitVec (8 * n)} {xs : List Kept}
    (within : Within low high xs) (outside : o + n ≤ low ∨ high ≤ o) (rest : xs.Pairwise Apart) :
    (⟨o, n, v⟩ :: xs).Pairwise Apart := by
  refine List.pairwise_cons.mpr ⟨fun y member => ?_, rest⟩
  obtain ⟨above, below⟩ := within y member
  obtain before | behind := outside
  · exact .inl (Nat.le_trans before above)
  · exact .inr (Nat.le_trans below behind)

theorem pairwise_append {low middle high : Nat} {xs ys : List Kept} (first : Within low middle xs)
    (second : Within middle high ys) (left : xs.Pairwise Apart) (right : ys.Pairwise Apart) :
    (xs ++ ys).Pairwise Apart := by
  refine List.pairwise_append.mpr ⟨left, right, fun x before y behind => ?_⟩
  exact .inl (Nat.le_trans (first x before).2 (second y behind).1)

end Kept

/-- Stores the values one after the other. -/
def storeAll (order : ByteOrder) (base : BitVec w) (m : Memory w) (xs : List Kept) : Memory w :=
  xs.foldl (fun m x => store order m (base + BitVec.ofNat w x.offset) x.bytes x.value) m

theorem storeAll_cons (order : ByteOrder) (base : BitVec w) (m : Memory w) (x : Kept)
    (xs : List Kept) : storeAll order base m (x :: xs) =
      storeAll order base (store order m (base + BitVec.ofNat w x.offset) x.bytes x.value) xs :=
  rfl

theorem storeAll_append (order : ByteOrder) (base : BitVec w) (m : Memory w) (xs ys : List Kept) :
    storeAll order base m (xs ++ ys) = storeAll order base (storeAll order base m xs) ys :=
  List.foldl_append

theorem load_storeAll_of_apart {order : ByteOrder} {base : BitVec w} {m : Memory w} {o n : Nat}
    {xs : List Kept} (room : Kept.Within 0 (2 ^ w) xs) (inside : o + n ≤ 2 ^ w)
    (apart : ∀ x ∈ xs, x.stop ≤ o ∨ o + n ≤ x.offset) :
    load order (storeAll order base m xs) (base + BitVec.ofNat w o) n =
      load order m (base + BitVec.ofNat w o) n := by
  induction xs generalizing m with
  | nil => rfl
  | cons x rest ih =>
    rw [storeAll, List.foldl_cons]
    refine (ih (fun y member => room y (List.mem_cons_of_mem _ member))
      fun y member => apart y (List.mem_cons_of_mem _ member)).trans ?_
    exact load_store_of_apart (apart x List.mem_cons_self).symm (room x List.mem_cons_self).2 inside

/-- Values whose places do not overlap are all there at the end. -/
theorem load_storeAll {order : ByteOrder} {base : BitVec w} {m : Memory w} {xs : List Kept}
    (room : Kept.Within 0 (2 ^ w) xs) (apart : xs.Pairwise Kept.Apart) {x : Kept} (member : x ∈ xs) :
    load order (storeAll order base m xs) (base + BitVec.ofNat w x.offset) x.bytes = x.value := by
  induction xs generalizing m with
  | nil => cases member
  | cons y rest ih =>
    obtain ⟨own, others⟩ := List.pairwise_cons.mp apart
    have within : Kept.Within 0 (2 ^ w) rest := fun z member => room z (List.mem_cons_of_mem _ member)
    rw [storeAll, List.foldl_cons]
    obtain rfl | later := List.mem_cons.mp member
    · have space := (room x List.mem_cons_self).2
      refine (load_storeAll_of_apart within space fun z member => (own z member).symm).trans ?_
      exact load_store space
    · exact ih within others later

end Memory

/-- A place in memory, by its address and its length in bytes. -/
structure Place (w : Nat) where
  address : BitVec w
  bytes : Nat
deriving DecidableEq

namespace Place
variable {w : Nat}

/-- Whether a store of `n` bytes at `a` changes a byte of the place. -/
def touchedBy (p : Place w) (a : BitVec w) (n : Nat) : Bool :=
  (List.range p.bytes).any fun i => decide ((p.address + BitVec.ofNat w i - a).toNat < n)

/-- A store that does not touch a place leaves what it holds. -/
theorem load_store_of_not_touched {order : ByteOrder} {m : Memory w} {p : Place w} {a : BitVec w}
    {n : Nat} (v : BitVec (8 * n)) (spared : p.touchedBy a n = false) :
    Memory.load order (Memory.store order m a n v) p.address p.bytes =
      Memory.load order m p.address p.bytes := by
  refine Memory.load_congr fun i inside => if_neg fun touched => ?_
  have hit : p.touchedBy a n = true :=
    List.any_eq_true.mpr ⟨i, List.mem_range.mpr inside, decide_eq_true touched⟩
  rw [spared] at hit
  cases hit

/-- No byte belongs to both places. -/
def Apart (p q : Place w) : Prop :=
  ∀ i < p.bytes, ∀ j < q.bytes, p.address + BitVec.ofNat w i ≠ q.address + BitVec.ofNat w j

/-- What lies in a place is not changed by a store to one that is apart from it. -/
theorem Apart.load_store {order : ByteOrder} {m : Memory w} {p : Place w}
    {a : BitVec w} {n : Nat} (apart : p.Apart ⟨a, n⟩) (v : BitVec (8 * n)) {o l : Nat}
    (inside : o + l ≤ p.bytes) :
    Memory.load order (Memory.store order m a n v) (p.address + BitVec.ofNat w o) l =
      Memory.load order m (p.address + BitVec.ofNat w o) l := by
  refine Memory.load_congr fun i below => if_neg fun touched => ?_
  rw [BitVec.add_assoc, ← BitVec.ofNat_add] at touched
  refine apart (o + i) (by omega) _ touched ?_
  rw [BitVec.ofNat_toNat, BitVec.setWidth_eq, BitVec.add_comm a, BitVec.sub_add_cancel]

end Place

end PowerAsm.Proofs
