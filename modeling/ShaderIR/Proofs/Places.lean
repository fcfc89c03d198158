import ShaderIR.Place.Basic

/-! What places stand for while a table of locations grows. -/
namespace ShaderIR.Places

variable {ps : Places} {p : Place} {data : PlaceData}

theorem find?_push (ps : Places) (data : PlaceData) (p : Place) :
    (ps.push data).find? p = if p = ps.next then some data else ps.find? p := by
  obtain ⟨index⟩ := p
  unfold find? push next
  simp only [Place.mk.injEq, Array.getElem?_push]
  by_cases below : index < ps.base
  · have differs : index ≠ ps.base + ps.entries.size := by omega
    simp [below, differs]
  · by_cases same : index = ps.base + ps.entries.size
    · simp [same]
    · have differs : index - ps.base ≠ ps.entries.size := by omega
      simp [below, same, differs]

theorem find?_next (ps : Places) : ps.find? ps.next = none := by
  simp [find?, next]

theorem index_lt_next (found : ps.find? p = some data) : p.index < ps.next.index := by
  unfold find? at found
  split at found
  · contradiction
  · have bound := (Array.getElem?_eq_some_iff.mp found).1
    simp only [next]
    omega

theorem get_eq_ok : ps.get p = .ok data ↔ ps.find? p = some data := by
  unfold get
  cases ps.find? p <;> simp

theorem find?_markAccessed (ps : Places) (target p : Place) :
    (ps.markAccessed target).find? p =
      (ps.find? p).map fun data => { data with accessed := data.accessed || decide (p = target) } := by
  cases found : ps.find? target with
  | none =>
    simp only [markAccessed, found]
    by_cases same : p = target
    · subst same
      simp [found]
    · simp [same]
  | some data =>
    have known := found
    unfold find? at known
    split at known
    · contradiction
    · rename_i above
      have bound := (Array.getElem?_eq_some_iff.mp known).1
      simp only [markAccessed, found]
      by_cases same : p = target
      · subst same
        rw [found]
        simp [find?, above, bound]
      · simp only [same, decide_false, Bool.or_false, Option.map_id']
        unfold find?
        split
        · rfl
        · rename_i inside
          have differs : target.index - ps.base ≠ p.index - ps.base := by
            intro eq
            apply same
            obtain ⟨i⟩ := p
            obtain ⟨j⟩ := target
            dsimp only at eq above inside
            rw [Place.mk.injEq]
            omega
          simp [differs]

@[simp] theorem markAccessed_next (ps : Places) (p : Place) :
    (ps.markAccessed p).next = ps.next := by
  unfold markAccessed
  split <;> simp [next]

end ShaderIR.Places
