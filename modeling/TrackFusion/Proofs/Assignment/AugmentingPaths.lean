import Mathlib.Data.Finset.Card
import Mathlib.Data.Fintype.Card
import TrackFusion.Assignment.Solver

/-!
The tracker's own solver gives every row its own column.

Whatever the labels are, a pairing tells the same pairs from either side. The tree of a row hangs its
columns one after another, each from the row itself or from the row that is paired with a column hung
before. The path of a free column therefore ends at the root, and exchanging the pairs along it leaves
the paired rows paired and adds the root. As the root is not paired, the tree cannot hold all columns
before it finds a free one.
-/

set_option autoImplicit false
set_option relaxedAutoImplicit false

namespace TrackFusion

namespace Solver

variable {n m : Nat}

section Entries

variable {α : Type}

private theorem get_set (v : Vector α n) (i j : Fin n) (a : α) :
    (v.set i a i.isLt).get j = if j = i then a else v.get j := by
  change (v.set i.1 a i.isLt)[j.1] = if j = i then a else v[j.1]
  rw [Vector.getElem_set]
  simp only [Fin.ext_iff, eq_comm]

private theorem get_replicate (a : α) (i : Fin n) : (Vector.replicate n a).get i = a :=
  Vector.getElem_replicate i.isLt

private theorem get_ofFn (f : Fin n → α) (i : Fin n) : (Vector.ofFn f).get i = f i :=
  Vector.getElem_ofFn i.isLt

end Entries

namespace Pairing

def Consistent (p : Pairing n m) : Prop :=
  ∀ x y, p.columnOf.get x = some y ↔ p.rowOf.get y = some x

/-- Both sides tell the same pairs, except that no row has column `y`, whatever is recorded there. -/
structure ConsistentWithout (p : Pairing n m) (y : Fin m) : Prop where
  free : ∀ x, p.columnOf.get x ≠ some y
  agree : ∀ x y', y' ≠ y → (p.columnOf.get x = some y' ↔ p.rowOf.get y' = some x)

def give (p : Pairing n m) (x : Fin n) (y : Fin m) : Pairing n m where
  columnOf := p.columnOf.set x (some y) x.isLt
  rowOf := p.rowOf.set y (some x) y.isLt

variable {p : Pairing n m} {x : Fin n} {y : Fin m}

theorem Consistent.injective {x' : Fin n} (consistent : p.Consistent)
    (first : p.columnOf.get x = some y) (second : p.columnOf.get x' = some y) : x = x' :=
  Option.some.inj (((consistent x y).mp first).symm.trans ((consistent x' y).mp second))

theorem Consistent.without (consistent : p.Consistent) (free : p.rowOf.get y = none) :
    p.ConsistentWithout y := by
  refine ⟨fun x given => ?_, fun x y' _ => consistent x y'⟩
  rw [consistent x y, free] at given
  cases given

theorem columnOf_give (p : Pairing n m) (x x' : Fin n) (y : Fin m) :
    (p.give x y).columnOf.get x' = if x' = x then some y else p.columnOf.get x' :=
  get_set p.columnOf x x' (some y)

theorem rowOf_give (p : Pairing n m) (x : Fin n) (y y' : Fin m) :
    (p.give x y).rowOf.get y' = if y' = y then some x else p.rowOf.get y' :=
  get_set p.rowOf y y' (some x)

theorem ConsistentWithout.agree_give (without : p.ConsistentWithout y) {y' : Fin m}
    (unlike : p.columnOf.get x ≠ some y') (x' : Fin n) :
    (p.give x y).columnOf.get x' = some y' ↔ (p.give x y).rowOf.get y' = some x' := by
  rw [columnOf_give, rowOf_give]
  by_cases row : x' = x <;> by_cases column : y' = y
  · simp [row, column]
  · rw [if_pos row, if_neg column, ← without.agree x' y' column, row]
    exact iff_of_false (fun given => column (Option.some.inj given).symm) unlike
  · rw [if_neg row, if_pos column, column]
    exact iff_of_false (without.free x') fun given => row (Option.some.inj given).symm
  · rw [if_neg row, if_neg column, without.agree x' y' column]

theorem ConsistentWithout.give (without : p.ConsistentWithout y) (alone : p.columnOf.get x = none) :
    (p.give x y).Consistent := by
  intro x' y'
  refine without.agree_give ?_ x'
  rw [alone]
  exact nofun

theorem ConsistentWithout.give_of_some {previous : Fin m} (without : p.ConsistentWithout y)
    (had : p.columnOf.get x = some previous) : (p.give x y).ConsistentWithout previous := by
  have different : previous ≠ y := by
    rintro rfl
    exact without.free x had
  refine ⟨fun x' given => ?_, fun x' y' other => without.agree_give ?_ x'⟩
  · rw [columnOf_give] at given
    split_ifs at given with row
    · exact different (Option.some.inj given).symm
    · rw [without.agree _ _ different] at given had
      exact row (Option.some.inj (given.symm.trans had))
  · rw [had]
    exact fun same => other (Option.some.inj same).symm

end Pairing

/-- Every column of the tree hangs from the root, or from the row of a column of lower rank. -/
def Tree.LeadsTo (tree : Tree n m) (p : Pairing n m) (root : Fin n) (rank : Fin m → Nat) : Prop :=
  ∀ y x, tree.parent.get y = some x → x = root ∨
    ∃ y', (tree.parent.get y').isSome ∧ p.columnOf.get x = some y' ∧ rank y' < rank y

variable {tree : Tree n m} {p start : Pairing n m} {root : Fin n} {rank : Fin m → Nat}

theorem Pairing.augment_of_parent {x : Fin n} {y : Fin m} (p : Pairing n m) (fuel : Nat)
    (hung : tree.parent.get y = some x) : p.augment tree (fuel + 1) y =
      match p.columnOf.get x with
      | none => p.give x y
      | some previous => (p.give x y).augment tree fuel previous := by
  rw [augment, hung]
  rfl

/-- Exchanging the pairs along the path of a column without a row leaves the paired rows paired, and
pairs the root. Rows of columns of lower rank have not been changed since the path began. -/
theorem Pairing.augment_spec (leads : tree.LeadsTo start root rank)
    (unpaired : start.columnOf.get root = none) {fuel : Nat} {y : Fin m}
    (without : p.ConsistentWithout y) (hung : (tree.parent.get y).isSome)
    (unchanged : ∀ x, (x = root ∨ ∃ y', start.columnOf.get x = some y' ∧ rank y' < rank y) →
      p.columnOf.get x = start.columnOf.get x) (enough : rank y < fuel) :
    (p.augment tree fuel y).Consistent ∧ ∀ x, ((p.augment tree fuel y).columnOf.get x).isSome ↔
      x = root ∨ (p.columnOf.get x).isSome := by
  -- the columns of the path fall in rank, so the rank of the first one is fuel enough
  induction fuel generalizing p y with
  | zero => exact absurd enough (Nat.not_lt_zero _)
  | succ fuel ih =>
    obtain ⟨x, parent⟩ := Option.isSome_iff_exists.mp hung
    rw [augment_of_parent p fuel parent]
    rcases leads y x parent with rfl | ⟨y', hung', column, lower⟩
    · have alone : p.columnOf.get x = none := (unchanged x (.inl rfl)).trans unpaired
      rw [alone]
      refine ⟨without.give alone, fun x' => ?_⟩
      rw [columnOf_give]
      split_ifs with row
      · exact iff_of_true rfl (.inl row)
      · exact (or_iff_right row).symm
    · have had : p.columnOf.get x = some y' := (unchanged x (.inr ⟨y', column, lower⟩)).trans column
      rw [had]
      -- no row further along the path is `x`, so all of them are as they were at its start
      have later (x' : Fin n)
          (below : x' = root ∨ ∃ y'', start.columnOf.get x' = some y'' ∧ rank y'' < rank y') :
          (p.give x y).columnOf.get x' = start.columnOf.get x' := by
        have other : x' ≠ x := by
          rintro rfl
          rcases below with rfl | ⟨y'', given, less⟩
          · rw [column] at unpaired
            cases unpaired
          · rw [Option.some.inj (given.symm.trans column)] at less
            exact Nat.lt_irrefl _ less
        rw [columnOf_give, if_neg other]
        refine unchanged x' (below.imp_right ?_)
        rintro ⟨y'', given, less⟩
        exact ⟨y'', given, less.trans lower⟩
      obtain ⟨consistent, paired⟩ := ih (without.give_of_some had) hung' later
        (Nat.lt_of_lt_of_le lower (Nat.le_of_lt_succ enough))
      refine ⟨consistent, fun x' => (paired x').trans (or_congr_right ?_)⟩
      rw [columnOf_give]
      split_ifs with row
      · rw [row, had]
        exact iff_of_true rfl rfl
      · exact Iff.rfl

namespace Tree

/-- What is known of the tree of a root while it holds paired columns only: from whose rows they hang,
and in which order they were hung. -/
structure Grown (tree : Tree n m) (p : Pairing n m) (root : Fin n) (rank : Fin m → Nat)
    (hung : Finset (Fin m)) : Prop where
  mem_iff : ∀ y, y ∈ hung ↔ (tree.parent.get y).isSome
  ranked : ∀ y ∈ hung, rank y < hung.card
  leads : tree.LeadsTo p root rank
  nearest : ∀ y, tree.nearest.get y = root ∨
    ∃ y' ∈ hung, p.columnOf.get (tree.nearest.get y) = some y'
  paired : ∀ y ∈ hung, ∃ x, p.columnOf.get x = some y

variable {hung : Finset (Fin m)} {y : Fin m}

theorem grown_root (labels : Labelling n m) (gains : Mat n m Int64) (p : Pairing n m)
    (root : Fin n) (rank : Fin m → Nat) :
    (Tree.root labels gains root).Grown p root rank ∅ := by
  have bare (y : Fin m) : (Tree.root labels gains root).parent.get y = none := get_replicate none y
  refine ⟨fun y => ?_, nofun, fun y x parent => ?_, fun y => .inl (get_replicate root y), nofun⟩
  · rw [bare]
    exact iff_of_false (Finset.notMem_empty y) Bool.false_ne_true
  · rw [bare] at parent
    cases parent

theorem Grown.card_lt (grown : tree.Grown p root rank hung)
    (unpaired : p.columnOf.get root = none) : hung.card < n := by
  have given : hung.image some ⊆ (Finset.univ.erase root).image p.columnOf.get := by
    intro column member
    obtain ⟨y, listed, rfl⟩ := Finset.mem_image.mp member
    obtain ⟨x, paired⟩ := grown.paired y listed
    refine Finset.mem_image.mpr ⟨x, Finset.mem_erase.mpr ⟨?_, Finset.mem_univ x⟩, paired⟩
    rintro rfl
    rw [unpaired] at paired
    cases paired
  have few := (Finset.card_le_card given).trans Finset.card_image_le
  rw [Finset.card_image_of_injective _ (Option.some_injective _),
    Finset.card_erase_of_mem (Finset.mem_univ root), Finset.card_univ, Fintype.card_fin] at few
  exact Nat.lt_of_le_sub_one root.pos few

theorem get_parent_hang (tree : Tree n m) (y y' : Fin m) : (tree.hang y).parent.get y' =
    if y' = y then some (tree.nearest.get y) else tree.parent.get y' :=
  get_set tree.parent y y' _

theorem Grown.leadsTo_hang (grown : tree.Grown p root rank hung) (outside : y ∉ hung) :
    (tree.hang y).LeadsTo p root (Function.update rank y hung.card) := by
  -- columns that hung before keep their parents and their ranks
  have old {y' : Fin m} (member : y' ∈ hung) :
      y' ≠ y ∧ ((tree.hang y).parent.get y').isSome ∧
        Function.update rank y hung.card y' = rank y' := by
    have other : y' ≠ y := fun same => outside (same ▸ member)
    refine ⟨other, ?_, Function.update_of_ne other _ _⟩
    rw [get_parent_hang, if_neg other]
    exact (grown.mem_iff y').mp member
  intro y' x parent
  rw [get_parent_hang] at parent
  split_ifs at parent with same
  · obtain rfl := Option.some.inj parent
    refine (grown.nearest y).imp_right ?_
    rintro ⟨y'', member, column⟩
    obtain ⟨-, hung', rank'⟩ := old member
    refine ⟨y'', hung', column, ?_⟩
    rw [rank', same, Function.update_self]
    exact grown.ranked y'' member
  · refine (grown.leads y' x parent).imp_right ?_
    rintro ⟨y'', some', column, lower⟩
    obtain ⟨-, hung', rank'⟩ := old ((grown.mem_iff y'').mpr some')
    refine ⟨y'', hung', column, ?_⟩
    rwa [rank', Function.update_of_ne same]

theorem Grown.addRow_hang (grown : tree.Grown p root rank hung) (outside : y ∉ hung) {x : Fin n}
    (column : p.columnOf.get x = some y) (labels : Labelling n m) (gains : Mat n m Int64) :
    ((tree.hang y).addRow labels gains x).Grown p root (Function.update rank y hung.card)
      (insert y hung) := by
  have hangs (y' : Fin m) : ((tree.hang y).addRow labels gains x).parent.get y' =
      if y' = y then some (tree.nearest.get y) else tree.parent.get y' :=
    get_parent_hang tree y y'
  have size : (insert y hung).card = hung.card + 1 := Finset.card_insert_of_notMem outside
  refine ⟨fun y' => ?_, fun y' member => ?_, grown.leadsTo_hang outside, fun y' => ?_,
    fun y' member => ?_⟩
  · rw [hangs, Finset.mem_insert, grown.mem_iff]
    split_ifs with same
    · exact iff_of_true (.inl same) rfl
    · exact or_iff_right same
  · rw [size]
    rcases Finset.mem_insert.mp member with rfl | old
    · rw [Function.update_self]
      exact Nat.lt_succ_self _
    · have other : y' ≠ y := fun same => outside (same ▸ old)
      rw [Function.update_of_ne other]
      exact (grown.ranked y' old).trans (Nat.lt_succ_self _)
  · have nearest : ((tree.hang y).addRow labels gains x).nearest.get y' = x ∨
        ((tree.hang y).addRow labels gains x).nearest.get y' = tree.nearest.get y' := by
      unfold addRow
      dsimp only
      rw [get_ofFn]
      split_ifs
      · exact .inl rfl
      · exact .inr rfl
    rcases nearest with same | same <;> rw [same]
    · exact .inr ⟨y, Finset.mem_insert_self y hung, column⟩
    · refine (grown.nearest y').imp_right ?_
      rintro ⟨y'', old, paired⟩
      exact ⟨y'', Finset.mem_insert_of_mem old, paired⟩
  · rcases Finset.mem_insert.mp member with rfl | old
    · exact ⟨x, column⟩
    · exact grown.paired y' old

theorem Grown.shift (grown : tree.Grown p root rank hung) (delta : Int64) :
    (tree.shift delta).Grown p root rank hung :=
  ⟨grown.mem_iff, grown.ranked, grown.leads, grown.nearest, grown.paired⟩

def closer (tree : Tree n m) (best : Option (Fin m)) (y : Fin m) : Option (Fin m) :=
  if (tree.parent.get y).isSome then best
  else
    match best with
    | none => some y
    | some b => if tree.slack.get y < tree.slack.get b then some y else some b

theorem closer_of_not_isSome (outside : ¬ (tree.parent.get y).isSome) (best : Option (Fin m)) :
    tree.closer best y = some y ∨ ∃ b, best = some b ∧ tree.closer best y = some b := by
  unfold closer
  rw [if_neg outside]
  cases best with
  | none => exact .inl rfl
  | some b =>
    dsimp only
    split_ifs
    · exact .inl rfl
    · exact .inr ⟨b, rfl, rfl⟩

theorem foldl_closer (tree : Tree n m) (columns : List (Fin m)) (best : Option (Fin m)) :
    (∀ y, columns.foldl tree.closer best = some y → best = some y ∨ tree.parent.get y = none) ∧
      (columns.foldl tree.closer best = none →
        best = none ∧ ∀ y ∈ columns, (tree.parent.get y).isSome) := by
  induction columns generalizing best with
  | nil => exact ⟨fun y found => .inl found, fun nothing => ⟨nothing, nofun⟩⟩
  | cons first rest ih =>
    obtain ⟨found, nothing⟩ := ih (tree.closer best first)
    rw [List.foldl_cons]
    by_cases inside : (tree.parent.get first).isSome
    · have same : tree.closer best first = best := if_pos inside
      rw [same] at found nothing ⊢
      refine ⟨found, fun none => ⟨(nothing none).1, fun y member => ?_⟩⟩
      rcases List.mem_cons.mp member with rfl | later
      · exact inside
      · exact (nothing none).2 y later
    · have bare : tree.parent.get first = none := Option.not_isSome_iff_eq_none.mp inside
      rcases closer_of_not_isSome inside best with next | ⟨b, old, next⟩ <;>
        rw [next] at found nothing ⊢
      · refine ⟨fun y last => .inr ?_, fun none => absurd (nothing none).1 (Option.some_ne_none _)⟩
        rcases found y last with same | outside
        · rwa [← Option.some.inj same]
        · exact outside
      · refine ⟨fun y last => ?_, fun none => absurd (nothing none).1 (Option.some_ne_none _)⟩
        rw [old]
        exact found y last

theorem closest?_spec (tree : Tree n m) :
    (∀ y, tree.closest? = some y → tree.parent.get y = none) ∧
      (tree.closest? = none → ∀ y, (tree.parent.get y).isSome) := by
  obtain ⟨found, nothing⟩ := tree.foldl_closer (List.finRange m) none
  refine ⟨fun y same => ?_, fun none y => (nothing none).2 y (List.mem_finRange y)⟩
  exact (found y same).resolve_left nofun

end Tree

/-- Growing the tree of a row that has no column leaves the paired rows paired, and pairs it. -/
theorem grow_spec (fits : n ≤ m) (gains : Mat n m Int64) (labels : Labelling n m)
    {hung : Finset (Fin m)} {fuel : Nat} (consistent : p.Consistent)
    (unpaired : p.columnOf.get root = none) (grown : tree.Grown p root rank hung)
    (enough : m ≤ hung.card + fuel) :
    (grow gains fuel labels tree p).2.Consistent ∧
      ∀ x, ((grow gains fuel labels tree p).2.columnOf.get x).isSome ↔
        x = root ∨ (p.columnOf.get x).isSome := by
  -- every round hangs one more column, and while the root has none the tree cannot hold them all
  induction fuel generalizing labels tree rank hung with
  | zero =>
    have few := grown.card_lt unpaired
    omega
  | succ fuel ih =>
    have few := (grown.card_lt unpaired).trans_le fits
    unfold grow
    cases closest : tree.closest? with
    | none =>
      have all : hung = Finset.univ := Finset.eq_univ_iff_forall.mpr fun y =>
        (grown.mem_iff y).mpr (tree.closest?_spec.2 closest y)
      rw [all, Finset.card_univ, Fintype.card_fin] at few
      exact absurd few (Nat.lt_irrefl m)
    | some y =>
      have outside : y ∉ hung := by
        rw [grown.mem_iff, tree.closest?_spec.1 y closest]
        exact Bool.false_ne_true
      have shifted : (if 0 < tree.slack.get y then tree.shift (tree.slack.get y) else tree).Grown p
          root rank hung := by
        split_ifs
        · exact grown.shift _
        · exact grown
      dsimp only
      generalize (if 0 < tree.slack.get y then tree.shift (tree.slack.get y) else tree) = tree' at *
      generalize (if 0 < tree.slack.get y then labels.shift tree (tree.slack.get y) else labels) =
        labels'
      cases free : p.rowOf.get y with
      | none =>
        refine Pairing.augment_spec (shifted.leadsTo_hang outside) unpaired (consistent.without free)
          ?_ (fun x _ => rfl) ?_
        · rw [Tree.get_parent_hang, if_pos rfl]
          rfl
        · rwa [Function.update_self]
      | some x =>
        have column := (consistent x y).mpr free
        refine ih labels' (shifted.addRow_hang outside column labels' gains) ?_
        rw [Finset.card_insert_of_notMem outside]
        omega

theorem foldl_grow_spec (fits : n ≤ m) (gains : Mat n m Int64) (roots : List (Fin n))
    (distinct : roots.Nodup) (state : Labelling n m × Pairing n m) (consistent : state.2.Consistent)
    (unpaired : ∀ root ∈ roots, state.2.columnOf.get root = none) :
    let after := (roots.foldl
      (fun (labels, pairing) root => grow gains m labels (.root labels gains root) pairing) state).2
    after.Consistent ∧
      ∀ x, (after.columnOf.get x).isSome ↔ x ∈ roots ∨ (state.2.columnOf.get x).isSome := by
  induction roots generalizing state with
  | nil => exact ⟨consistent, fun x => (or_iff_right List.not_mem_nil).symm⟩
  | cons root rest ih =>
    obtain ⟨fresh, distinct⟩ := List.nodup_cons.mp distinct
    obtain ⟨labels, pairing⟩ := state
    obtain ⟨next, paired⟩ := grow_spec fits gains labels consistent
      (unpaired root List.mem_cons_self) (Tree.grown_root labels gains pairing root fun _ => 0)
      (Nat.le_add_left m _)
    obtain ⟨last, all⟩ := ih distinct
      (grow gains m labels (.root labels gains root) pairing) next fun other member => by
        refine Option.not_isSome_iff_eq_none.mp fun given => ?_
        rcases (paired other).mp given with rfl | old
        · exact fresh member
        · rw [unpaired other (List.mem_cons_of_mem root member)] at old
          exact Bool.false_ne_true old
    refine ⟨last, fun x => (all x).trans ?_⟩
    rw [paired x, List.mem_cons, ← or_assoc, or_comm (a := x ∈ rest)]

theorem pairRows_spec (fits : n ≤ m) (gains : Mat n m Int64) :
    (pairRows gains).Consistent ∧ ∀ x, ((pairRows gains).columnOf.get x).isSome := by
  have start : (⟨Vector.replicate n none, Vector.replicate m none⟩ : Pairing n m).Consistent := by
    intro x y
    rw [get_replicate, get_replicate]
    exact ⟨nofun, nofun⟩
  obtain ⟨consistent, paired⟩ := foldl_grow_spec fits gains (List.finRange n)
    (List.nodup_finRange n) (.initial gains, _) start fun root _ => get_replicate none root
  exact ⟨consistent, fun x => (paired x).mpr (.inl (List.mem_finRange x))⟩

/-- The tracker's own solver gives each row of every matrix that is not taller than wide its own
column. -/
theorem augmentingPaths_injective (fits : n ≤ m) (weights : Mat n m Int) :
    Function.Injective (augmentingPaths.columns fits weights).get := by
  obtain ⟨consistent, paired⟩ := pairRows_spec fits (weights.map fun w => -Int64.ofInt w)
  have given (x : Fin n) : (pairRows (weights.map fun w => -Int64.ofInt w)).columnOf.get x =
      some ((augmentingPaths.columns fits weights).get x) := by
    obtain ⟨y, column⟩ := Option.isSome_iff_exists.mp (paired x)
    unfold augmentingPaths
    dsimp only
    rw [get_ofFn, column, Option.getD_some]
  intro x x' same
  exact consistent.injective (given x) ((given x').trans (congrArg some same.symm))

end Solver

end TrackFusion
