import Olsr.Cursor

/-!
Octet strings read by position and cut into pieces. A piece is sized if the 16-bit number at its
offset 2 is its own length. Sized pieces delimit themselves: an octet string is cut into them in at
most one way, and `pieces` finds it. Reading items to the end of an octet string is cutting it into
the octets of the items. Where the cut breaks off before the end is settled as well.
-/

namespace Olsr

namespace Octets

/-- Past the end all octets are zero. -/
def octetAt (b : Octets) (i : Nat) : UInt8 := b.getD i 0

def word16At (b : Octets) (i : Nat) : UInt16 := word16 (octetAt b i) (octetAt b (i + 1))

@[simp] theorem octetAt_cons_zero (x : UInt8) (b : Octets) : octetAt (x :: b) 0 = x := by
  rw [octetAt, List.getD_cons_zero]

@[simp] theorem octetAt_cons_succ (x : UInt8) (b : Octets) (i : Nat) :
    octetAt (x :: b) (i + 1) = octetAt b i := by
  rw [octetAt, List.getD_cons_succ, octetAt]

theorem octetAt_append {x : Octets} {i : Nat} (h : i < x.length) (y : Octets) :
    octetAt (x ++ y) i = octetAt x i := by
  simp only [octetAt, List.getD_eq_getElem?_getD, List.getElem?_append_left h]

theorem word16At_append {x : Octets} {i : Nat} (h : i + 1 < x.length) (y : Octets) :
    word16At (x ++ y) i = word16At x i := by
  rw [word16At, octetAt_append (by omega), octetAt_append h, word16At]

theorem octetAt_take {b : Octets} {i n : Nat} (h : i < n) : octetAt (b.take n) i = octetAt b i := by
  simp only [octetAt, List.getD_eq_getElem?_getD, List.getElem?_take_of_lt h]

theorem word16At_take {b : Octets} {i n : Nat} (h : i + 1 < n) :
    word16At (b.take n) i = word16At b i := by
  rw [word16At, octetAt_take (by omega), octetAt_take h, word16At]

theorem octetAt_drop (b : Octets) (n i : Nat) : octetAt (b.drop n) i = octetAt b (n + i) := by
  simp only [octetAt, List.getD_eq_getElem?_getD, List.getElem?_drop]

theorem octet_toNat_eq_zero {x : UInt8} : x.toNat = 0 ↔ x = 0 := UInt8.toNat_inj (b := 0)

theorem word_toNat_eq_zero {w : UInt16} : w.toNat = 0 ↔ w = 0 := UInt16.toNat_inj (b := 0)

theorem word16_eq_zero {high low : UInt8} (h : word16 high low = 0) : high = 0 ∧ low = 0 := by
  have sum := word16_toNat high low
  rw [h, UInt16.toNat_zero] at sum
  exact ⟨octet_toNat_eq_zero.mp (by omega), octet_toNat_eq_zero.mp (by omega)⟩

theorem exists_cons₄ {b : Octets} (h : 4 ≤ b.length) :
    ∃ p q r s rest, b = p :: q :: r :: s :: rest := by
  match b with
  | [] | [_] | [_, _] | [_, _, _] => simp at h
  | p :: q :: r :: s :: rest => exact ⟨p, q, r, s, rest, rfl⟩

theorem exists_cons₁₂ {b : Octets} (h : 12 ≤ b.length) :
    ∃ p₀ p₁ p₂ p₃ p₄ p₅ p₆ p₇ p₈ p₉ p₁₀ p₁₁ rest,
      b = p₀ :: p₁ :: p₂ :: p₃ :: p₄ :: p₅ :: p₆ :: p₇ :: p₈ :: p₉ :: p₁₀ :: p₁₁ :: rest := by
  obtain ⟨p₀, p₁, p₂, p₃, b, rfl⟩ := exists_cons₄ (b := b) (by omega)
  simp only [List.length_cons] at h
  obtain ⟨p₄, p₅, p₆, p₇, b, rfl⟩ := exists_cons₄ (b := b) (by omega)
  simp only [List.length_cons] at h
  obtain ⟨p₈, p₉, p₁₀, p₁₁, b, rfl⟩ := exists_cons₄ (b := b) (by omega)
  exact ⟨p₀, p₁, p₂, p₃, p₄, p₅, p₆, p₇, p₈, p₉, p₁₀, p₁₁, b, rfl⟩

def Splits (P : Octets → Prop) (b : Octets) (xs : List Octets) : Prop :=
  xs.flatten = b ∧ ∀ x ∈ xs, P x

structure Sized (x : Octets) : Prop where
  header : 4 ≤ x.length
  declared : x.length = (word16At x 2).toNat

/-- The sized pieces from the front on; octets that do not begin with one are the last piece. -/
def pieces (b : Octets) : List Octets :=
  let size := (word16At b 2).toNat
  if 4 ≤ size ∧ size ≤ b.length then b.take size :: pieces (b.drop size)
  else if b.isEmpty then [] else [b]
termination_by b.length
decreasing_by
  rw [List.length_drop]
  omega

theorem pieces_nil : pieces [] = [] := by
  rw [pieces, if_neg (by simp only [List.length_nil]; omega)]
  rfl

theorem flatten_pieces (b : Octets) : (pieces b).flatten = b := by
  fun_induction pieces b with
  | case1 b size sized ih => rw [List.flatten_cons, ih, List.take_append_drop]
  | case2 b size _ empty => rw [List.flatten_nil, List.isEmpty_iff.mp empty]
  | case3 b => rw [List.flatten_singleton]

theorem length_flatMap_pieces {f : Octets → Octets} (h : ∀ x, (f x).length = x.length)
    (b : Octets) : ((pieces b).flatMap f).length = b.length := by
  have whole := congrArg List.length (flatten_pieces b)
  rw [List.length_flatten] at whole
  rw [List.length_flatMap, ← whole]
  exact congrArg (List.sum <| List.map · (pieces b)) (funext h)

theorem pieces_append {x : Octets} (h : Sized x) (rest : Octets) :
    pieces (x ++ rest) = x :: pieces rest := by
  have header := h.header
  have size : (word16At (x ++ rest) 2).toNat = x.length := by
    rw [word16At_append (by omega), ← h.declared]
  rw [pieces, size, if_pos ⟨header, by simp⟩, List.take_left, List.drop_left]

theorem pieces_flatten {xs : List Octets} (h : ∀ x ∈ xs, Sized x) : pieces xs.flatten = xs := by
  induction xs with
  | nil => exact pieces_nil
  | cons x xs ih =>
    rw [List.flatten_cons, pieces_append (h x (by simp)), ih fun y hy => h y (by simp [hy])]

theorem Splits.mono {P Q : Octets → Prop} {b : Octets} {xs : List Octets} (h : Splits P b xs)
    (imp : ∀ x, P x → Q x) : Splits Q b xs :=
  ⟨h.1, fun x hx => imp x (h.2 x hx)⟩

theorem Splits.flatMap_congr {α : Type} {P : Octets → Prop} {b : Octets} {xs : List Octets}
    {read : Octets → α} {write : α → Octets} {again : Octets → Octets} (h : Splits P b xs)
    (one : ∀ x, P x → write (read x) = again x) :
    (xs.map read).flatMap write = xs.flatMap again := by
  rw [List.flatMap_map, List.flatMap_def, List.flatMap_def,
    List.map_congr_left fun x member => one x (h.2 x member)]

theorem Splits.flatMap_eq {P : Octets → Prop} {b : Octets} {xs : List Octets}
    {f : Octets → Octets} (h : Splits P b xs) (fixed : ∀ x, P x → f x = x) : xs.flatMap f = b := by
  rw [List.flatMap_def, List.map_congr_left fun x member => fixed x (h.2 x member), List.map_id',
    h.1]

theorem Splits.eq_pieces {P : Octets → Prop} {b : Octets} {xs : List Octets} (h : Splits P b xs)
    (sized : ∀ x, P x → Sized x) : xs = pieces b := by
  rw [← h.1, pieces_flatten fun x member => sized x (h.2 x member)]

/-- The pieces are of the kind `P`, and no other cut of these octets has sized pieces only. -/
def SplitsOnly (P : Octets → Prop) (b : Octets) (xs : List Octets) : Prop :=
  Splits P b xs ∧ ∀ ys, Splits Sized b ys → ys = xs

theorem Splits.only {P : Octets → Prop} {b : Octets} {xs : List Octets} (h : Splits P b xs)
    (sized : ∀ x, P x → Sized x) : SplitsOnly P b xs :=
  ⟨h, fun _ other => (other.eq_pieces fun _ => id).trans (h.eq_pieces sized).symm⟩

theorem splits_nil_iff {P : Octets → Prop} (nonempty : ∀ x, P x → x ≠ []) (xs : List Octets) :
    Splits P [] xs ↔ xs = [] := by
  constructor
  · rintro ⟨empty, all⟩
    cases xs with
    | nil => rfl
    | cons x xs => exact absurd (List.append_eq_nil_iff.mp empty).1 (nonempty x (all x (by simp)))
  · rintro rfl
    exact ⟨rfl, by simp⟩

theorem splits_cons_iff {P : Octets → Prop} {b x : Octets} {xs : List Octets} :
    Splits P b (x :: xs) ↔ ∃ rest, b = x ++ rest ∧ P x ∧ Splits P rest xs := by
  constructor
  · rintro ⟨rfl, all⟩
    exact ⟨xs.flatten, rfl, all x (by simp), rfl, fun y hy => all y (by simp [hy])⟩
  · rintro ⟨rest, rfl, hx, rfl, all⟩
    refine ⟨rfl, fun y hy => ?_⟩
    cases List.mem_cons.mp hy with
    | inl e => exact e ▸ hx
    | inr hy => exact all y hy

/-- Pieces of the kind `P` stand at the front, and what is behind them does not begin with one. -/
structure RunsTo (P : Octets → Prop) (b : Octets) (xs : List Octets) (tail : Octets) : Prop where
  whole : xs.flatten ++ tail = b
  pieces : ∀ x ∈ xs, P x
  ends : ∀ x rest, tail = x ++ rest → ¬ P x

theorem runsTo_cons_iff {P : Octets → Prop} {b x tail : Octets} {xs : List Octets} :
    RunsTo P b (x :: xs) tail ↔ ∃ rest, b = x ++ rest ∧ P x ∧ RunsTo P rest xs tail := by
  constructor
  · rintro ⟨rfl, all, ends⟩
    obtain ⟨hx, later⟩ := List.forall_mem_cons.mp all
    exact ⟨xs.flatten ++ tail, by rw [List.flatten_cons, List.append_assoc], hx, rfl, later, ends⟩
  · rintro ⟨rest, rfl, hx, rfl, later, ends⟩
    exact ⟨by rw [List.flatten_cons, List.append_assoc], List.forall_mem_cons.mpr ⟨hx, later⟩, ends⟩

theorem Splits.runsTo {P : Octets → Prop} (nonempty : ∀ x, P x → x ≠ []) {b : Octets}
    {xs : List Octets} (h : Splits P b xs) : RunsTo P b xs [] := by
  refine ⟨by rw [List.append_nil, h.1], h.2, fun x rest front hx => nonempty x hx ?_⟩
  exact (List.append_eq_nil_iff.mp front.symm).1

theorem RunsTo.splits {P : Octets → Prop} {b : Octets} {xs : List Octets} (h : RunsTo P b xs []) :
    Splits P b xs :=
  ⟨by rw [← h.whole, List.append_nil], h.pieces⟩

theorem exists_runsTo {P : Octets → Prop} (nonempty : ∀ x, P x → x ≠ []) (b : Octets) :
    ∃ xs tail, RunsTo P b xs tail := by
  induction length : b.length using Nat.strongRecOn generalizing b with
  | ind n ih =>
    by_cases front : ∃ x rest, b = x ++ rest ∧ P x
    · obtain ⟨x, rest, rfl, hx⟩ := front
      have pos : 0 < x.length := List.length_pos_iff.mpr (nonempty x hx)
      rw [List.length_append] at length
      obtain ⟨xs, tail, later⟩ := ih rest.length (by omega) rest rfl
      exact ⟨x :: xs, tail, runsTo_cons_iff.mpr ⟨rest, rfl, hx, later⟩⟩
    · exact ⟨[], b, rfl, by simp, fun x rest e hx => front ⟨x, rest, e, hx⟩⟩

/-- Where sized pieces end, and what is left then, is settled by the octets. -/
theorem RunsTo.unique {P : Octets → Prop} (sized : ∀ x, P x → Sized x) {b tail tail' : Octets}
    {xs xs' : List Octets} (h : RunsTo P b xs tail) (h' : RunsTo P b xs' tail') :
    xs' = xs ∧ tail' = tail := by
  induction xs generalizing b xs' with
  | nil =>
    have front : tail = b := h.whole
    cases xs' with
    | nil => exact ⟨rfl, h'.whole.trans front.symm⟩
    | cons x' xs' =>
      obtain ⟨rest', front', hx', -⟩ := runsTo_cons_iff.mp h'
      exact absurd hx' (h.ends x' rest' (front.trans front'))
  | cons x xs ih =>
    obtain ⟨rest, front, hx, later⟩ := runsTo_cons_iff.mp h
    cases xs' with
    | nil =>
      have front' : tail' = b := h'.whole
      exact absurd hx (h'.ends x rest (front'.trans front))
    | cons x' xs' =>
      obtain ⟨rest', front', hx', later'⟩ := runsTo_cons_iff.mp h'
      have cut := pieces_append (sized x hx) rest
      rw [← front, front', pieces_append (sized x' hx')] at cut
      cases (List.cons.inj cut).1
      cases List.append_cancel_left (front.symm.trans front')
      obtain ⟨rfl, rfl⟩ := ih later later'
      exact ⟨rfl, rfl⟩

end Octets

namespace Cursor

open Octets

variable {α : Type} {item : Cursor α} {shrinks : Shrinks item}

theorem except_map_eq_ok_iff {β : Type} {r : Except Stop α} {g : α → β} {y : β} :
    r.map g = .ok y ↔ ∃ x, r = .ok x ∧ y = g x := by
  cases r with
  | error stop => simp [Except.map]
  | ok x => simp [Except.map, eq_comm]

theorem toEnd_nil : toEnd item shrinks [] = .ok [] := by
  rw [toEnd]
  simp

theorem toEnd_of_ok {b rest : Octets} {x : α} (h : item b = .ok (x, rest)) :
    toEnd item shrinks b = (toEnd item shrinks rest).map (x :: ·) := by
  have shorter := shrinks b x rest h
  rw [toEnd, if_neg (by cases b <;> simp at shorter ⊢)]
  split
  · simp_all
  · simp_all

theorem toEnd_of_error {b : Octets} {stop : Stop} (hb : b ≠ []) (h : item b = .error stop) :
    toEnd item shrinks b = .error stop := by
  rw [toEnd, if_neg (by simpa using hb)]
  split
  · simp_all
  · simp_all

/-- If an item is read exactly from a piece of the kind `P`, as what `f` says of the piece, then
items are read to the end exactly from octets that split into such pieces. -/
theorem toEnd_eq_ok_iff {P : Octets → Prop} {f : Octets → α}
    (reads : ∀ b x rest, item b = .ok (x, rest) ↔ ∃ r, b = r ++ rest ∧ P r ∧ x = f r)
    (nonempty : ∀ r, P r → r ≠ []) {b : Octets} {xs : List α} :
    toEnd item shrinks b = .ok xs ↔ ∃ ps, Splits P b ps ∧ xs = ps.map f := by
  induction length : b.length using Nat.strongRecOn generalizing b xs with
  | ind n ih =>
    by_cases empty : b = []
    · subst empty
      simp only [toEnd_nil, splits_nil_iff nonempty, exists_eq_left, List.map_nil, Except.ok.injEq]
      exact eq_comm
    cases h : item b with
    | error stop =>
      rw [toEnd_of_error empty h]
      refine ⟨nofun, ?_⟩
      rintro ⟨ps, splits, -⟩
      cases ps with
      | nil => exact absurd splits.1.symm empty
      | cons p ps =>
        obtain ⟨rest, front, hp, -⟩ := splits_cons_iff.mp splits
        have read := (reads b (f p) rest).mpr ⟨p, front, hp, rfl⟩
        rw [h] at read
        cases read
    | ok result =>
      obtain ⟨x, rest⟩ := result
      obtain ⟨r, front, hr, hx⟩ := (reads b x rest).mp h
      have shorter := shrinks b x rest h
      rw [toEnd_of_ok h, except_map_eq_ok_iff]
      constructor
      · rintro ⟨ys, hys, rfl⟩
        obtain ⟨ps, splits, rfl⟩ := (ih rest.length (by omega) rfl).mp hys
        exact ⟨r :: ps, splits_cons_iff.mpr ⟨rest, front, hr, splits⟩, by rw [List.map_cons, hx]⟩
      · rintro ⟨ps, splits, rfl⟩
        cases ps with
        | nil => exact absurd splits.1.symm empty
        | cons p ps =>
          obtain ⟨rest', front', hp, splits⟩ := splits_cons_iff.mp splits
          -- Reading is a function, so the first piece is the one that was read.
          have read := (reads b (f p) rest').mpr ⟨p, front', hp, rfl⟩
          rw [h] at read
          cases read
          exact ⟨ps.map f, (ih rest.length (by omega) rfl).mpr ⟨ps, splits, rfl⟩, rfl⟩

theorem toEnd_append {P : Octets → Prop} {f : Octets → α}
    (reads : ∀ x rest, P x → item (x ++ rest) = .ok (f x, rest)) {xs : List Octets}
    (all : ∀ x ∈ xs, P x) (tail : Octets) :
    toEnd item shrinks (xs.flatten ++ tail) =
      (toEnd item shrinks tail).map (xs.map f ++ ·) := by
  induction xs with
  | nil => cases h : toEnd item shrinks tail <;> simp [h, Except.map]
  | cons x xs ih =>
    obtain ⟨hx, later⟩ := List.forall_mem_cons.mp all
    rw [List.flatten_cons, List.append_assoc, toEnd_of_ok (reads x _ hx), ih later]
    cases toEnd item shrinks tail <;> rfl

end Cursor
end Olsr
