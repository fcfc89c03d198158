import ShaderIR.Proofs.Handles

/-! Calls that are refused. A call that builds changes a draft only after its last check, so a
refusal leaves everything as it was. A history from which the refused calls are left out gives all
other calls the same answers, compilations among them, and ends in the same draft. -/
namespace ShaderIR

variable {c : Call} {rest : List Call}

abbrev Exchange := Call × Except Fault Reply

def Exchange.isRefused (x : Exchange) : Bool := x.1.builds && !x.2.toBool

namespace Draft

def exchanges (d : Draft) : List Call → List Exchange
  | [] => []
  | c :: rest => (c, c.answer d) :: (c.leaves d).exchanges rest

def heeded (d : Draft) (calls : List Call) : List Call :=
  ((d.exchanges calls).filter fun x => !x.isRefused).map Prod.fst

variable {d : Draft}

theorem refused_same (valid : d.graph.Valid) {fault : Fault} {d' : Draft} (builds : c.builds = true)
    (refused : c.run d = .error fault d') : d' = d :=
  (Call.run_yields valid builds).error refused

theorem leaves_of_isRefused (valid : d.graph.Valid)
    (refused : Exchange.isRefused (c, c.answer d) = true) : c.leaves d = d := by
  obtain ⟨builds, failed⟩ := (Bool.and_eq_true _ _).mp refused
  rcases Call.leaves_cases valid builds with ⟨reply, answer, _⟩ | ⟨_, same⟩
  · simp [answer, Except.toBool] at failed
  · exact same

theorem heeded_cons_of_refused (refused : Exchange.isRefused (c, c.answer d) = true) :
    d.heeded (c :: rest) = (c.leaves d).heeded rest := by
  simp [heeded, exchanges, refused]

theorem heeded_cons (heard : Exchange.isRefused (c, c.answer d) = false) :
    d.heeded (c :: rest) = c :: (c.leaves d).heeded rest := by
  simp [heeded, exchanges, heard]

/-- What is left of a history is answered as it was in the history, and leaves the same draft. -/
theorem Issuing.heeded (issuing : d.Issuing) (calls : List Call) :
    d.after (d.heeded calls) = d.after calls ∧
      d.exchanges (d.heeded calls) = (d.exchanges calls).filter fun x => !x.isRefused := by
  induction calls generalizing d with
  | nil => exact ⟨rfl, rfl⟩
  | cons c rest ih =>
    have next := (issuing.leaves c).1
    cases refused : Exchange.isRefused (c, c.answer d) with
    | true =>
      have same := leaves_of_isRefused issuing.valid refused
      obtain ⟨after, answers⟩ := ih issuing
      rw [heeded_cons_of_refused refused, same]
      constructor
      · rw [after, Draft.after, same]
      · rw [answers, exchanges, List.filter_cons_of_neg (by simp [refused]), same]
    | false =>
      obtain ⟨after, answers⟩ := ih next
      rw [heeded_cons refused]
      constructor
      · exact after
      · rw [exchanges, exchanges, List.filter_cons_of_pos (by simp [refused]), answers]

/-- Calls that are refused change nothing. Whatever a session has been through, a call that builds
and is refused leaves the whole draft as it was. So a program with its refused calls left out ends
in the same draft; the calls that remain are answered as they were, and a compilation after them
gives the same result and reports the same. -/
theorem refused_calls_change_nothing (settings : Settings) (slots : List Ty) {first : Draft}
    (begun : withInputs settings slots = .ok () first) (history : List Call) :
    (∀ c : Call, c.builds = true → ∀ fault d', c.run (first.after history) = .error fault d' →
      d' = first.after history) ∧
    ∀ program : List Call,
      first.after (history ++ (first.after history).heeded program) =
          first.after (history ++ program) ∧
        (first.after history).exchanges ((first.after history).heeded program) =
          ((first.after history).exchanges program).filter (fun x => !x.isRefused) ∧
        (first.after (history ++ (first.after history).heeded program)).compilation =
          (first.after (history ++ program)).compilation := by
  obtain rfl := eq_of_withInputs begun
  have issuing := ((issuing_begun settings slots).after history).1
  constructor
  · intro c builds fault d' refused
    exact refused_same issuing.valid builds refused
  · intro program
    obtain ⟨after, answers⟩ := issuing.heeded program
    have same : (((new settings).withSlots slots).after
        (history ++ (((new settings).withSlots slots).after history).heeded program)) =
        ((new settings).withSlots slots).after (history ++ program) := by
      rw [after_append, after, ← after_append]
    exact ⟨same, answers, by rw [same]⟩

/-- A program with calls that are refused late: a texture where a block is bound, an index that is
no integer, an operand and a part that were released, a branch and a jump outside of any block, and
a store to a block that can only be read. -/
def refusedAmong : List Call :=
  [.uniform 0 0 (.struct [.vec 4]), .texture 0 0 .plane, .member ⟨1⟩ 0, .index ⟨2⟩ ⟨0, 0⟩,
    .constant (.int 1), .release ⟨1, 1⟩, .binary .add ⟨0, 0⟩ ⟨1, 1⟩,
    .construct (.vec 2) [⟨0, 0⟩, ⟨1, 1⟩], .beginElse, .breakLoop, .member ⟨2⟩ 0,
    .load ⟨2⟩, .store ⟨2⟩ ⟨1, 2⟩, .output ⟨1, 2⟩, .builtin .pointSize ⟨1, 2⟩, .compile]

theorem refusedAmong_change_nothing :
    withInputs { stage := .vertex } [.single] = .ok () (vertex [.single]) ∧
      (∃ d', (Call.texture 0 0 .plane).run ((vertex [.single]).after
            [.uniform 0 0 (.struct [.vec 4])]) = .error (.bindingMismatch 0 0) d' ∧
          d' = (vertex [.single]).after [.uniform 0 0 (.struct [.vec 4])]) ∧
      (vertex [.single]).heeded refusedAmong =
        [.uniform 0 0 (.struct [.vec 4]), .member ⟨1⟩ 0, .constant (.int 1), .release ⟨1, 1⟩,
          .load ⟨2⟩, .output ⟨1, 2⟩, .compile] ∧
      (vertex [.single]).after
          [.uniform 0 0 (.struct [.vec 4]), .member ⟨1⟩ 0, .constant (.int 1), .release ⟨1, 1⟩,
            .load ⟨2⟩, .output ⟨1, 2⟩, .compile] = (vertex [.single]).after refusedAmong := by
  have heard : (vertex [.single]).heeded refusedAmong =
      [.uniform 0 0 (.struct [.vec 4]), .member ⟨1⟩ 0, .constant (.int 1), .release ⟨1, 1⟩,
        .load ⟨2⟩, .output ⟨1, 2⟩, .compile] := by
    decide +kernel
  have same := ((refused_calls_change_nothing { stage := .vertex } [.single] (withInputs_eq _ _)
    []).2 refusedAmong).1
  have kept := (refused_calls_change_nothing { stage := .vertex } [.single] (withInputs_eq _ _)
    [.uniform 0 0 (.struct [.vec 4])]).1 (.texture 0 0 .plane) rfl
  exact ⟨withInputs_eq _ _, ⟨_, rfl, kept _ _ rfl⟩, heard, heard ▸ same⟩

end Draft

end ShaderIR
