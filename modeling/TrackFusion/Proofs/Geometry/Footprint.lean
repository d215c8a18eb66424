import TrackFusion.Geometry.Shape
import TrackFusion.Proofs.Geometry.Rotation

/-!
The footprint of an upright box in exact numbers.

Its area is length times width wherever the box stands, and moving the box moves its centre.
-/

set_option autoImplicit false
set_option relaxedAutoImplicit false

namespace TrackFusion

namespace Shape

theorem half_eq (l : ℝ) : Exact.finite l / 2.0 = .finite (l / 2) := by
  rw [Exact.two_eq, Exact.finite_div_finite (by norm_num)]

theorem ofBox_eq (x y l w : ℝ) (z h : Exact) :
    ofBox ⟨.finite x, .finite y, z⟩ (.finite l) (.finite w) h =
      ⟨[⟨.finite (x - l / 2), .finite (y - w / 2), z⟩,
        ⟨.finite (x + l / 2), .finite (y - w / 2), z⟩,
        ⟨.finite (x + l / 2), .finite (y + w / 2), z⟩,
        ⟨.finite (x - l / 2), .finite (y + w / 2), z⟩], h⟩ := by
  unfold ofBox
  simp only [half_eq, Exact.finite_sub_finite, Exact.finite_add_finite]

theorem area_ofBox {x y l w : ℝ} (z h : Exact) (length : 0 ≤ l) (width : 0 ≤ w) :
    (ofBox ⟨.finite x, .finite y, z⟩ (.finite l) (.finite w) h).area = .finite (l * w) := by
  rw [ofBox_eq]
  unfold area
  rw [if_neg (by simp only [List.length_cons, List.length_nil]; omega)]
  simp only [edges, List.tail_cons, List.take_succ_cons, List.take_zero, List.cons_append,
    List.nil_append, List.zip_cons_cons, List.zip_nil_left, List.map_cons, List.map_nil, edgeTerm,
    Scalar.sum, List.foldl_cons, List.foldl_nil, Exact.zero_eq, Exact.finite_mul_finite,
    Exact.finite_sub_finite, Exact.finite_add_finite]
  have doubled : Scalar.abs (Exact.finite (2 * (l * w))) / 2.0 = .finite (l * w) := by
    have nonneg : ¬ Exact.finite (2 * (l * w)) < 0 := by
      rw [Exact.zero_eq, Exact.finite_lt_finite, not_lt]
      positivity
    unfold Scalar.abs
    rw [if_neg nonneg, half_eq, mul_div_cancel_left₀ _ two_ne_zero]
  rw [← doubled]
  ring_nf

theorem translate_ofBox (x y a b l w : ℝ) (z c h : Exact) :
    (ofBox ⟨.finite x, .finite y, z⟩ (.finite l) (.finite w) h).translate ⟨.finite a, .finite b, c⟩ =
      ofBox ⟨.finite (x + a), .finite (y + b), z + c⟩ (.finite l) (.finite w) h := by
  have moved (p q : ℝ) : (⟨.finite p, .finite q, z⟩ : Vec3 Exact) + ⟨.finite a, .finite b, c⟩ =
      ⟨.finite (p + a), .finite (q + b), z + c⟩ := rfl
  rw [ofBox_eq, ofBox_eq]
  simp only [translate, List.map_cons, List.map_nil, moved, add_sub_right_comm, add_right_comm]

theorem isValid_ofBox {x y z l w h : ℝ} (length : 0 ≤ l) (width : 0 ≤ w) (height : 0 ≤ h)
    (spacious : Scalar.epsilon < Exact.finite (l * w)) :
    (ofBox ⟨.finite x, .finite y, .finite z⟩ (.finite l) (.finite w) (Exact.finite h)).isValid =
      true := by
  unfold isValid
  rw [area_ofBox _ _ length width, ofBox_eq]
  simp only [List.length_cons, List.length_nil, List.all_cons, List.all_nil, Vec3.isFinite,
    Exact.isFinite_finite, Exact.zero_eq, Exact.finite_le_finite, height, spacious, Bool.and_self,
    decide_true]
  rfl

end Shape

end TrackFusion
