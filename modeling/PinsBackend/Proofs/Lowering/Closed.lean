import PinsBackend.Proofs.Lowering.Relation

/-! Jumps that stay where they stand: every target is a label of the sequence that holds the jump.
-/
namespace PinsBackend.Ir

/-- The label that a statement defines. -/
def Stmt.label? : Stmt → Option String
  | .label l => some l
  | _ => none

mutual

/-- No jump leaves a nested statement. -/
def Expr.isClosed : Expr → Bool
  | .const _ | .data _ | .temp _ => true
  | .mem a => a.isClosed
  | .binop _ l r => l.isClosed && r.isClosed
  | .call _ args => Expr.allClosed args
  | .eseq s e => s.isClosed [] && e.isClosed
  | .checkIndex i _ => i.isClosed

def Expr.allClosed : List Expr → Bool
  | [] => true
  | e :: es => e.isClosed && Expr.allClosed es

/-- Jumps go to one of these labels. A sequence offers its own labels and no others. -/
def Stmt.isClosed (targets : List String) : Stmt → Bool
  | .move dst src => dst.isClosed && src.isClosed
  | .eval e => e.isClosed
  | .jump l => targets.contains l
  | .cjump c ifTrue ifFalse =>
    c.isClosed && targets.contains ifTrue && targets.contains ifFalse
  | .label _ => true
  | .seq ss => Stmt.allClosed (ss.filterMap Stmt.label?) ss

def Stmt.allClosed (targets : List String) : List Stmt → Bool
  | [] => true
  | s :: ss => s.isClosed targets && Stmt.allClosed targets ss

end

@[simp] theorem Expr.allClosed_eq (es : List Expr) : Expr.allClosed es = es.all Expr.isClosed := by
  induction es with
  | nil => rfl
  | cons e es ih => simp [Expr.allClosed, ih]

@[simp] theorem Stmt.allClosed_eq (targets : List String) (ss : List Stmt) :
    Stmt.allClosed targets ss = ss.all (Stmt.isClosed targets) := by
  induction ss with
  | nil => rfl
  | cons s ss ih => simp [Stmt.allClosed, ih]

theorem Expr.isClosed_after {s : Stmt} {e : Expr} (hs : s.isClosed [] = true)
    (he : e.isClosed = true) : (Expr.after s e).isClosed = true := by
  unfold Expr.after
  split
  · exact he
  · simp [Expr.isClosed, hs, he]

/-- A sequence of moves and evaluations has no jump to close. -/
theorem Stmt.isClosed_moves {ss : List Stmt} (h : ∀ s ∈ ss, ∀ targets, s.isClosed targets = true) :
    (Stmt.seq ss).isClosed [] = true := by
  simp only [Stmt.isClosed, Stmt.allClosed_eq, List.all_eq_true]
  exact fun s hs => h s hs _

namespace Lowering

variable {ctx : Context}

/-- What closedness means for each kind of code; statements of declarations have no jump of their
own. -/
def Code.isClosed : Code → Prop
  | .value e => e.isClosed = true
  | .values es => ∀ e ∈ es, e.isClosed = true
  | .moves ss temps =>
    (∀ s ∈ ss, ∀ targets, s.isClosed targets = true) ∧ ∀ e ∈ temps, e.isClosed = true
  | .stmts ss => ∀ s ∈ ss, ∀ targets, s.isClosed targets = true

theorem isClosed_frameAt (hops : Nat) : (frameAt hops).isClosed = true := by
  induction hops with
  | zero => rfl
  | succ hops ih => simpa [frameAt, Expr.isClosed] using ih

theorem isClosed_addressExpr (access : Access) : (addressExpr access).isClosed = true := by
  cases access <;> simp [addressExpr, Expr.isClosed, Expr.int, isClosed_frameAt]

theorem isClosed_elementExpr {base index : Expr} {length size : Int} (hb : base.isClosed = true)
    (hi : index.isClosed = true) : (elementExpr base index length size).isClosed = true := by
  simp [elementExpr, Expr.isClosed, Expr.int, hb, hi]

theorem isClosed_link {depth : Nat} {id : NodeId} {label : String} {link : Expr}
    (h : Callee ctx depth id label link) : link.isClosed = true := by
  cases h <;> simp [Expr.isClosed, Expr.int, isClosed_frameAt]

theorem isClosed_block {items : List Expr} (h : ∀ e ∈ items, e.isClosed = true) :
    (block items).isClosed = true := by
  unfold block
  cases hlast : items.getLast? with
  | none => rfl
  | some last =>
    refine Expr.isClosed_after (Stmt.isClosed_moves ?_) (h last (List.mem_of_getLast? hlast))
    intro s hs targets
    obtain ⟨e, he, rfl⟩ := List.mem_map.1 hs
    exact h e ((List.dropLast_subset items) he)

/-- Lowered code is closed, and so are the chunks it adds. -/
theorem closed_of_lowers {depth : Nat} {piece : Piece} {s s' : State} {code : Code}
    (h : Lowers ctx depth piece s code s') :
    code.isClosed ∧ ((∀ c ∈ s.chunks, c.body.isClosed [] = true) →
      ∀ c ∈ s'.chunks, c.body.isClosed [] = true) := by
  induction h with
  | literal => exact ⟨rfl, id⟩
  | name reached typed =>
    refine ⟨?_, id⟩
    simp only [Code.isClosed]
    split <;> simp [Expr.isClosed, isClosed_addressExpr]
  | @unary _ _ op _ _ _ r _ ih =>
    refine ⟨?_, ih.2⟩
    cases op <;> simpa [Code.isClosed, unary, Expr.isClosed, Expr.int] using ih.1
  | direct _ _ _ ihl ihr =>
    refine ⟨?_, ihr.2 ∘ ihl.2⟩
    simp only [Code.isClosed] at ihl ihr
    simp [Code.isClosed, Expr.isClosed, ihl.1, ihr.1]
  | shortCircuit conjunction _ _ _ ihl ihr =>
    refine ⟨Expr.isClosed_after ?_ rfl, ihr.2 ∘ ihl.2⟩
    simp only [Code.isClosed] at ihl ihr
    cases conjunction <;>
      simp [Stmt.isClosed, Expr.isClosed, Stmt.label?, List.filterMap_cons, ihl.1, ihr.1]
  | index _ _ _ ihl ihr =>
    refine ⟨?_, ihr.2 ∘ ihl.2⟩
    simp only [Code.isClosed]
    split
    · exact isClosed_elementExpr ihl.1 ihr.1
    · simpa [Expr.isClosed] using isClosed_elementExpr ihl.1 ihr.1
  | call callee _ ih =>
    refine ⟨Expr.isClosed_after (Stmt.isClosed_moves ih.1.1) ?_, ih.2⟩
    simpa [Expr.isClosed, isClosed_link callee] using ih.1.2
  | block _ ih => exact ⟨isClosed_block ih.1, ih.2⟩
  | ifThen _ _ ihc iht =>
    refine ⟨Expr.isClosed_after ?_ rfl, iht.2 ∘ ihc.2⟩
    simp only [Code.isClosed] at ihc iht
    simp [Stmt.isClosed, Stmt.label?, List.filterMap_cons, ihc.1, iht.1]
  | ifElse _ _ _ ihc iht ihe =>
    refine ⟨Expr.isClosed_after ?_ rfl, ihe.2 ∘ iht.2 ∘ ihc.2⟩
    simp only [Code.isClosed] at ihc iht ihe
    simp [Stmt.isClosed, Expr.isClosed, Stmt.label?, List.filterMap_cons, ihc.1, iht.1, ihe.1]
  | whileDo _ _ ihc ihb =>
    refine ⟨Expr.isClosed_after ?_ rfl, ihb.2 ∘ ihc.2⟩
    simp only [Code.isClosed] at ihc ihb
    simp [Stmt.isClosed, Stmt.label?, List.filterMap_cons, ihc.1, ihb.1]
  | forDo _ _ _ _ _ ihc ihlo ihhi ihst ihb =>
    refine ⟨Expr.isClosed_after ?_ rfl, ihb.2 ∘ ihst.2 ∘ ihhi.2 ∘ ihlo.2 ∘ ihc.2⟩
    simp only [Code.isClosed] at ihc ihlo ihhi ihst ihb
    simp [Stmt.isClosed, Expr.isClosed, Stmt.label?, List.filterMap_cons, ihc.1, ihlo.1, ihhi.1,
      ihst.1, ihb.1]
  | scope _ _ ihd ihb =>
    exact ⟨Expr.isClosed_after (Stmt.isClosed_moves ihd.1) ihb.1, ihb.2 ∘ ihd.2⟩
  | assign _ _ ihv iht =>
    refine ⟨Expr.isClosed_after ?_ rfl, iht.2 ∘ ihv.2⟩
    simp only [Code.isClosed] at ihv iht
    simp [Stmt.isClosed, Expr.isClosed, ihv.1, iht.1]
  | nil => exact ⟨by simp [Code.isClosed], id⟩
  | cons _ _ ihe ihes =>
    refine ⟨?_, ihes.2 ∘ ihe.2⟩
    intro e he
    rcases List.mem_cons.1 he with rfl | he
    · exact ihe.1
    · exact ihes.1 e he
  | noArguments => exact ⟨by simp [Code.isClosed], id⟩
  | argument _ _ ihe ihes =>
    simp only [Code.isClosed] at ihe ihes
    refine ⟨⟨?_, ?_⟩, ihes.2 ∘ ihe.2⟩
    · intro s hs targets
      rcases List.mem_cons.1 hs with rfl | hs
      · simp [Stmt.isClosed, Expr.isClosed, ihe.1]
      · exact ihes.1.1 s hs targets
    · intro e he
      rcases List.mem_cons.1 he with rfl | he
      · rfl
      · exact ihes.1.2 e he
  | nameLocation _ => exact ⟨by simp [Code.isClosed, Expr.isClosed, isClosed_addressExpr], id⟩
  | elementLocation _ _ _ ihl ihr =>
    refine ⟨?_, ihr.2 ∘ ihl.2⟩
    simpa [Code.isClosed, Expr.isClosed] using isClosed_elementExpr ihl.1 ihr.1
  | initialized _ _ ih =>
    refine ⟨?_, ih.2⟩
    simp only [Code.isClosed] at ih
    simp [Code.isClosed, Stmt.isClosed, Expr.isClosed, isClosed_addressExpr, ih.1]
  | function _ _ _ ih =>
    refine ⟨by simp [Code.isClosed], fun hs c hc => ?_⟩
    rcases Array.mem_push.1 hc with hc | rfl
    · exact ih.2 hs c hc
    · simp only [Code.isClosed] at ih
      simp [Stmt.isClosed, Expr.isClosed, ih.1]
  | silent _ _ => exact ⟨by simp [Code.isClosed], id⟩
  | noDecls => exact ⟨by simp [Code.isClosed], id⟩
  | decls _ _ ihd ihds =>
    refine ⟨fun s hs targets => ?_, ihds.2 ∘ ihd.2⟩
    rcases List.mem_append.1 hs with hs | hs
    · exact ihd.1 s hs targets
    · exact ihds.1 s hs targets

end Lowering
end PinsBackend.Ir
