import PinsBackend.Ir.Canonical

/-! What running a piece of code may pass, in evaluation order: calls, labels and jumps. -/
namespace PinsBackend.Ir

inductive Event where
  | call (label : String)
  | label (name : String)
  | jump (label : String)
  | branch (ifTrue ifFalse : String)
  deriving DecidableEq, Repr

def Event.label? : Event → Option String
  | .label l => some l
  | _ => none

mutual

/-- Operands from left to right, then the call; a nested statement before its expression. -/
def Expr.events : Expr → List Event
  | .const _ | .data _ | .temp _ => []
  | .mem a => a.events
  | .binop _ l r => l.events ++ r.events
  | .call label args => Expr.eventsList args ++ [.call label]
  | .eseq s e => s.events ++ e.events
  | .checkIndex i _ => i.events

def Expr.eventsList : List Expr → List Event
  | [] => []
  | e :: es => e.events ++ Expr.eventsList es

/-- The destination of a move comes before its source. -/
def Stmt.events : Stmt → List Event
  | .move dst src => dst.events ++ src.events
  | .eval e => e.events
  | .jump l => [.jump l]
  | .cjump c ifTrue ifFalse => c.events ++ [.branch ifTrue ifFalse]
  | .label l => [.label l]
  | .seq ss => Stmt.eventsList ss

def Stmt.eventsList : List Stmt → List Event
  | [] => []
  | s :: ss => s.events ++ Stmt.eventsList ss

end

/-- The labels inside an expression. -/
def Expr.labels (e : Expr) : List String := e.events.filterMap Event.label?

/-- The labels that a statement defines, those inside expressions included. -/
def Stmt.labels (s : Stmt) : List String := s.events.filterMap Event.label?

/-- The linear code that a split statement stands for. -/
def Stmt.code (s : Stmt) : List Stmt := s.flatten.filter fun s => !Canonical.isIdle s

def Stmt.codeList (ss : List Stmt) : List Stmt :=
  (Stmt.flattenList ss).filter fun s => !Canonical.isIdle s

theorem Stmt.eventsList_eq (ss : List Stmt) : Stmt.eventsList ss = ss.flatMap Stmt.events := by
  induction ss with
  | nil => rfl
  | cons s ss ih => simp [Stmt.eventsList, ih]

theorem Expr.eventsList_eq (es : List Expr) : Expr.eventsList es = es.flatMap Expr.events := by
  induction es with
  | nil => rfl
  | cons e es ih => simp [Expr.eventsList, ih]

namespace Expr

@[simp] theorem labels_temp (t : Temp) : (Expr.temp t).labels = [] := rfl

@[simp] theorem labels_int (n : Int) : (Expr.int n).labels = [] := rfl

@[simp] theorem labels_mem (a : Expr) : (Expr.mem a).labels = a.labels := rfl

@[simp] theorem labels_binop (op : BinOp) (l r : Expr) :
    (Expr.binop op l r).labels = l.labels ++ r.labels := List.filterMap_append

@[simp] theorem labels_checkIndex (i : Expr) (n : Int) : (Expr.checkIndex i n).labels = i.labels :=
  rfl

@[simp] theorem labels_eseq (s : Stmt) (e : Expr) : (Expr.eseq s e).labels = s.labels ++ e.labels :=
  List.filterMap_append

end Expr

namespace Stmt

variable {s : Stmt}

@[simp] theorem labels_move (dst src : Expr) :
    (Stmt.move dst src).labels = dst.labels ++ src.labels :=
  List.filterMap_append

@[simp] theorem labels_eval (e : Expr) : (Stmt.eval e).labels = e.labels := rfl

@[simp] theorem labels_jump (l : String) : (Stmt.jump l).labels = [] := rfl

@[simp] theorem labels_cjump (c : Expr) (l m : String) : (Stmt.cjump c l m).labels = c.labels := by
  simp [labels, events, Expr.labels, Event.label?]

@[simp] theorem labels_label (l : String) : (Stmt.label l).labels = [l] := rfl

@[simp] theorem labels_seq_nil : (Stmt.seq []).labels = [] := rfl

@[simp] theorem labels_seq_cons (s : Stmt) (ss : List Stmt) :
    (Stmt.seq (s :: ss)).labels = s.labels ++ (Stmt.seq ss).labels := List.filterMap_append

theorem labels_seq_append (ss ts : List Stmt) :
    (Stmt.seq (ss ++ ts)).labels = (Stmt.seq ss).labels ++ (Stmt.seq ts).labels := by
  induction ss with
  | nil => rfl
  | cons s ss ih => simp [ih]

@[simp] theorem codeList_nil : codeList [] = [] := rfl

@[simp] theorem codeList_cons (s : Stmt) (ss : List Stmt) :
    codeList (s :: ss) = s.code ++ codeList ss := by
  simp [codeList, flattenList, code]

theorem codeList_append (ss ts : List Stmt) :
    codeList (ss ++ ts) = codeList ss ++ codeList ts := by
  induction ss with
  | nil => rfl
  | cons s ss ih => simp [ih]

@[simp] theorem code_seq (ss : List Stmt) : code (.seq ss) = codeList ss := rfl

@[simp] theorem code_label (l : String) : code (.label l) = [.label l] := rfl

@[simp] theorem code_jump (l : String) : code (.jump l) = [.jump l] := rfl

@[simp] theorem code_cjump (c : Expr) (l k : String) : code (.cjump c l k) = [.cjump c l k] := rfl

@[simp] theorem code_move (dst src : Expr) : code (.move dst src) = [.move dst src] := rfl

theorem code_eval {e : Expr} (h : e.isLeaf = false) : code (.eval e) = [.eval e] := by
  simp [code, flatten, Canonical.isIdle, h]

mutual

theorem flatten_of_isNop : (s : Stmt) → s.isNop = true → s.flatten = []
  | .seq ss, h => flattenList_of_allNop ss (by simpa [isNop] using h)
  | .move _ _, h | .eval _, h | .jump _, h | .cjump _ _ _, h | .label _, h => by simp [isNop] at h

theorem flattenList_of_allNop : (ss : List Stmt) → allNop ss = true → flattenList ss = []
  | [], _ => rfl
  | s :: ss, h => by
    simp only [allNop, Bool.and_eq_true] at h
    simp [flattenList, flatten_of_isNop s h.1, flattenList_of_allNop ss h.2]

end

theorem code_of_isNop (h : s.isNop = true) : s.code = [] := by
  simp [code, flatten_of_isNop s h]

theorem code_andThen (a b : Stmt) : (a.andThen b).code = a.code ++ b.code := by
  unfold andThen
  split
  · next h => simp [code_of_isNop h]
  · split
    · next h => simp [code_of_isNop h]
    · simp

mutual

/-- What a sequence collects from its parts is collected from its flat code. -/
theorem flatMap_flatten {α : Type} {f : Stmt → List α} (hf : ∀ ss, f (.seq ss) = ss.flatMap f) :
    (s : Stmt) → s.flatten.flatMap f = f s
  | .seq ss => by rw [flatten, flatMap_flattenList hf ss, hf]
  | .move _ _ | .eval _ | .jump _ | .cjump _ _ _ | .label _ => by simp [flatten]

theorem flatMap_flattenList {α : Type} {f : Stmt → List α} (hf : ∀ ss, f (.seq ss) = ss.flatMap f) :
    (ss : List Stmt) → (flattenList ss).flatMap f = ss.flatMap f
  | [] => rfl
  | s :: ss => by simp [flattenList, flatMap_flatten hf s, flatMap_flattenList hf ss]

end

theorem events_flatten (s : Stmt) : s.flatten.flatMap Stmt.events = s.events :=
  flatMap_flatten (fun ss => by rw [events, eventsList_eq]) s

theorem events_of_isIdle (h : Canonical.isIdle s = true) : s.events = [] := by
  cases s with
  | eval e => cases e <;> simp_all [Canonical.isIdle, Expr.isLeaf, events, Expr.events]
  | _ => simp [Canonical.isIdle] at h

theorem flatMap_events_filter (ss : List Stmt) :
    (ss.filter fun s => !Canonical.isIdle s).flatMap Stmt.events = ss.flatMap Stmt.events := by
  induction ss with
  | nil => rfl
  | cons s ss ih =>
    by_cases h : Canonical.isIdle s
    · simp [h, ih, events_of_isIdle h]
    · simp [h, ih]

/-- Linear code passes what its statement passes. -/
theorem events_code (s : Stmt) : s.code.flatMap Stmt.events = s.events := by
  rw [code, flatMap_events_filter, events_flatten]

theorem events_of_isNop (h : s.isNop = true) : s.events = [] := by
  rw [← events_flatten, flatten_of_isNop s h, List.flatMap_nil]

theorem events_andThen (a b : Stmt) : (a.andThen b).events = a.events ++ b.events := by
  unfold andThen
  split
  · next h => simp [events_of_isNop h]
  · split
    · next h => simp [events_of_isNop h]
    · simp [events, eventsList]

end Stmt
end PinsBackend.Ir
