import ClassStamp.ClassName

/-!
# Class names as text

A class name is written with dots, and with slashes inside class files. It is read back
from either.

* `ofString?_text`, `ofInternal?_internal`: each form read back;
* `internal_inj`: so different names differ inside class files.
-/

namespace ClassStamp

namespace ClassName

theorem ofString?_text (n : ClassName) : ofString? n.text = .ok n := by
  obtain ⟨hsegments, hplain⟩ := n.wellFormed
  have hne : n.text ≠ "" := fun hempty => by
    rw [hempty] at hsegments
    exact hsegments (by decide)
  have hfind : n.text.toList.find? isForbidden = none :=
    List.find?_eq_none.2 fun c hc => by simp [hplain c hc]
  unfold ofString?
  rw [if_neg hne, dif_neg hsegments]
  split
  · rename_i c hc
    rw [hfind] at hc
    cases hc
  · rfl

theorem not_mem_slash (n : ClassName) : '/' ∉ n.chars := fun h => by
  have hforbidden := n.wellFormed.2 '/' h
  cases hforbidden

theorem ofInternal?_internal (n : ClassName) : ofInternal? n.internal = .ok n := by
  -- a slash stands for a dot only, as no name has a slash of its own
  have hback : (n.chars.map fun c => if c = '.' then '/' else c).map
      (fun c => if c = '/' then '.' else c) = n.chars := by
    rw [List.map_map]
    refine (List.map_congr_left fun c hc => ?_).trans (List.map_id n.chars)
    have hslash : c ≠ '/' := fun he => n.not_mem_slash (he ▸ hc)
    show (if (if c = '.' then '/' else c) = '/' then '.' else if c = '.' then '/' else c) = c
    by_cases hdot : c = '.'
    · simp [hdot]
    · simp [hdot, hslash]
  rw [ofInternal?, internal, String.toList_ofList, hback, chars, String.ofList_toList,
    ofString?_text]

theorem internal_inj {m n : ClassName} (h : m.internal = n.internal) : m = n := by
  have hm := m.ofInternal?_internal
  rw [h, ofInternal?_internal] at hm
  exact (Except.ok.inj hm).symm

end ClassName

end ClassStamp
