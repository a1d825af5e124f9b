import Mathlib.Algebra.Ring.Int.Defs
import AmlaSandbox.Text.Numbers

/-!
# test

`test` evaluates a flat list of arguments. Instead of parsing it, it looks again for the operator to
split at wherever it goes on.
-/

namespace AmlaSandbox.Commands.TestCmd

open Text

/-! ### Tests -/

/-- What the tests on files ask of the context. -/
structure TestCtx where
  exist : Text → Bool
  isFile : Text → Bool
  isDir : Text → Bool
  /-- The size of what the path names. -/
  stat : Text → Option ℕ

def unaryTest (ctx : TestCtx) (op arg : Text) : Bool :=
  if op = "-e".toList then ctx.exist arg
  else if op = "-f".toList then ctx.isFile arg
  else if op = "-d".toList then ctx.isDir arg
  else if op = "-s".toList then ((ctx.stat arg).map (decide <| 0 < ·)).getD false
  else if op = "-r".toList ∨ op = "-w".toList then ctx.exist arg
  else if op = "-x".toList then false
  else if op = "-z".toList then arg.isEmpty
  else !arg.isEmpty

def binaryTest (left op right : Text) : Bool :=
  let l := (parseI64 left).getD 0
  let r := (parseI64 right).getD 0
  if op = "=".toList ∨ op = "==".toList then left = right
  else if op = "!=".toList then left ≠ right
  else if op = "-eq".toList then l = r
  else if op = "-ne".toList then l ≠ r
  else if op = "-lt".toList then l < r
  else if op = "-le".toList then l ≤ r
  else if op = "-gt".toList then l > r
  else if op = "-ge".toList then l ≥ r
  else false

/-! ### Operators -/

def bang : Text := "!".toList
def lparen : Text := "(".toList
def rparen : Text := ")".toList

inductive Op
  | and
  | or
deriving DecidableEq

namespace Op

def token : Op → Text
  | and => "-a".toList
  | or => "-o".toList

def other : Op → Op
  | and => or
  | or => and

def apply : Op → Bool → Bool → Bool
  | and => (· && ·)
  | or => (· || ·)

end Op

/-! ### Evaluation -/

/-- The depth behind an argument. -/
def nextDepth (arg : Text) (depth : ℕ) : ℕ :=
  if arg = lparen then depth + 1 else if arg = rparen then depth - 1 else depth

/-- The loop for the parenthesis that closes a group, at this depth: what is in the group, and what
is behind it. -/
def splitGroup : ℕ → List Text → Option (List Text × List Text)
  | _, [] => none
  | depth, arg :: args =>
    if nextDepth arg depth = 0 then some ([], args)
    else (splitGroup (nextDepth arg depth) args).map fun r => (arg :: r.1, r.2)

/-- The loop for an operator, which is not the last argument: what is before it, and behind. -/
def splitOperator (op : Op) : List Text → Option (List Text × List Text)
  | [] => none
  | [_] => none
  | arg :: next :: args =>
    if arg = op.token then some ([], next :: args)
    else (splitOperator op (next :: args)).map fun r => (arg :: r.1, r.2)

/-- The group at the front. -/
def openGroup : List Text → Option (List Text × List Text)
  | [] => none
  | arg :: args => if arg = lparen then splitGroup 1 args else none

lemma length_splitGroup {depth : ℕ} {args inner rest : List Text}
    (h : splitGroup depth args = some (inner, rest)) :
    inner.length + rest.length + 1 = args.length := by
  induction args generalizing depth inner with
  | nil => cases h
  | cons arg args ih =>
    rw [splitGroup] at h
    split_ifs at h
    · cases h
      simp
    · obtain ⟨⟨inner', rest'⟩, hsplit, heq⟩ := Option.map_eq_some_iff.mp h
      obtain ⟨rfl, rfl⟩ := Prod.mk.inj heq
      have := ih hsplit
      simp only [List.length_cons] at this ⊢
      omega

lemma length_openGroup {args inner rest : List Text} (h : openGroup args = some (inner, rest)) :
    inner.length + rest.length + 2 = args.length := by
  cases args with
  | nil => cases h
  | cons arg args =>
    rw [openGroup] at h
    split_ifs at h
    have := length_splitGroup h
    rw [List.length_cons]
    omega

lemma length_splitOperator {op : Op} {args left right : List Text}
    (h : splitOperator op args = some (left, right)) :
    left.length + right.length + 1 = args.length := by
  fun_induction splitOperator op args generalizing left with
  | case1 => cases h
  | case2 => cases h
  | case3 next args =>
    cases h
    simp
  | case4 arg next args harg ih =>
    obtain ⟨⟨left', right'⟩, hsplit, heq⟩ := Option.map_eq_some_iff.mp h
    obtain ⟨rfl, rfl⟩ := Prod.mk.inj heq
    have := ih hsplit
    simp only [List.length_cons] at this ⊢
    omega

def evaluate (ctx : TestCtx) (args : List Text) : Bool :=
  match args with
  | [] => false
  | arg :: args =>
    if arg = bang then !evaluate ctx args
    else
      match _hgroup : openGroup (arg :: args) with
      | some (inner, []) => evaluate ctx inner
      | some (inner, [_]) => evaluate ctx inner
      | some (inner, op :: next :: rest) =>
        if op = Op.and.token then evaluate ctx inner && evaluate ctx (next :: rest)
        else if op = Op.or.token then evaluate ctx inner || evaluate ctx (next :: rest)
        else evaluate ctx inner
      | none =>
        match args with
        | [] => !arg.isEmpty
        | [operand] => unaryTest ctx arg operand
        | op :: operand :: more =>
          match _hand : splitOperator .and (op :: operand :: more) with
          | some (left, right) => evaluate ctx (arg :: left) && evaluate ctx right
          | none =>
            match _hor : splitOperator .or (op :: operand :: more) with
            | some (left, right) => evaluate ctx (arg :: left) || evaluate ctx right
            | none => if more = [] then binaryTest arg op operand else false
termination_by args.length
decreasing_by
  all_goals
    first
      | (have hlen := length_openGroup _hgroup; simp only [List.length_cons] at hlen ⊢; omega)
      | (have hlen := length_splitOperator _hand; simp only [List.length_cons] at hlen ⊢; omega)
      | (have hlen := length_splitOperator _hor; simp only [List.length_cons] at hlen ⊢; omega)
      | (simp only [List.length_cons]; omega)

/-! ### Expressions -/

/-- An argument that is neither an operator nor a parenthesis. -/
structure Operand where
  text : Text
  unreserved : text ∉ [bang, lparen, rparen, Op.and.token, Op.or.token]

inductive Primary
  | word (word : Operand)
  | unary (op arg : Operand)
  | binary (left op right : Operand)

mutual

/-- Terms with the looser one of the two operators between them. -/
inductive Expr
  | last (term : Term)
  | cons (term : Term) (rest : Expr)

/-- Factors with the tighter operator between them. -/
inductive Term
  | last (factor : Factor)
  | cons (factor : Factor) (rest : Term)

inductive Factor
  | not (factor : Factor)
  | group (expr : Expr)
  | primary (primary : Primary)

end

namespace Primary

def args : Primary → List Text
  | word w => [w.text]
  | unary op arg => [op.text, arg.text]
  | binary left op right => [left.text, op.text, right.text]

def value (ctx : TestCtx) : Primary → Bool
  | word w => !w.text.isEmpty
  | unary op arg => unaryTest ctx op.text arg.text
  | binary left op right => binaryTest left.text op.text right.text

end Primary

-- `loose` is the operator that binds less tightly than the other one
section

variable (loose : Op)

mutual

/-- The arguments of an expression. -/
def Expr.args : Expr → List Text
  | .last term => term.args
  | .cons term rest => term.args ++ loose.token :: rest.args

def Term.args : Term → List Text
  | .last factor => factor.args
  | .cons factor rest => factor.args ++ loose.other.token :: rest.args

def Factor.args : Factor → List Text
  | .not factor => bang :: factor.args
  | .group expr => lparen :: (expr.args ++ [rparen])
  | .primary primary => primary.args

end

variable (ctx : TestCtx)

mutual

/-- The value of an expression. -/
def Expr.value : Expr → Bool
  | .last term => term.value
  | .cons term rest => loose.apply term.value rest.value

def Term.value : Term → Bool
  | .last factor => factor.value
  | .cons factor rest => loose.other.apply factor.value rest.value

def Factor.value : Factor → Bool
  | .not factor => !factor.value
  | .group expr => expr.value
  | .primary primary => primary.value ctx

end

end

/-- `-a` binds more tightly than `-o` in the grammar, but here it is split at first. -/
theorem not_evaluate_grammar :
    ¬ ∀ (ctx : TestCtx) (e : Expr), evaluate ctx (e.args .or) = e.value .or ctx := by
  intro h
  let operand (c : Text) (hc : c ∉ [bang, lparen, rparen, Op.and.token, Op.or.token]) : Factor :=
    .primary (.word ⟨c, hc⟩)
  have hsame := h ⟨fun _ => false, fun _ => false, fun _ => false, fun _ => none⟩
    (.cons (.cons (operand [] (by decide)) (.last (operand ['b'] (by decide))))
      (.last (.last (operand ['c'] (by decide)))))
  revert hsame
  decide +kernel

/-! ### Where the operators stand -/

mutual

/-- A `!` ends its term, and its group if the term is nothing else. A term of several factors that
starts with a group ends the group that it is in. In a term that starts with a primary no group has
a `-a`. -/
def Expr.WellPlaced : Expr → Prop
  | .last term => term.WellPlaced
  | .cons (.last factor) rest => factor.WellPlaced ∧ (∀ f, factor ≠ .not f) ∧ rest.WellPlaced
  | .cons (.cons factor term) rest =>
    (Term.cons factor term).WellPlaced ∧ (∀ e, factor ≠ .group e) ∧ rest.WellPlaced

def Term.WellPlaced : Term → Prop
  | .last factor => factor.WellPlaced
  | .cons factor rest =>
    factor.WellPlaced ∧ (∀ f, factor ≠ .not f) ∧ rest.WellPlaced ∧
      ((∃ p, factor = .primary p) → Op.and.token ∉ rest.args .and)

def Factor.WellPlaced : Factor → Prop
  | .not factor => factor.WellPlaced
  | .group expr => expr.WellPlaced
  | .primary _ => True

end

/-! ### Balanced arguments -/

/-- A group that is open stays open behind these arguments. -/
def Balanced (args : List Text) : Prop :=
  ∀ depth more, splitGroup (depth + 1) (args ++ more) =
    (splitGroup (depth + 1) more).map fun r => (args ++ r.1, r.2)

namespace Balanced

variable {args args' : List Text} {arg : Text}

lemma nil : Balanced [] := by
  intro depth more
  simp

lemma append (h : Balanced args) (h' : Balanced args') : Balanced (args ++ args') := by
  intro depth more
  rw [List.append_assoc, h, h', Option.map_map]
  congr 1
  funext r
  simp

lemma singleton (hl : arg ≠ lparen) (hr : arg ≠ rparen) : Balanced [arg] := by
  intro depth more
  have hdepth : nextDepth arg (depth + 1) = depth + 1 := by
    rw [nextDepth, if_neg hl, if_neg hr]
  rw [List.singleton_append, splitGroup, hdepth, if_neg (Nat.succ_ne_zero depth)]
  rfl

/-- Behind its closing parenthesis a group is left. -/
lemma splitGroup_eq (h : Balanced args) (rest : List Text) :
    splitGroup 1 (args ++ rparen :: rest) = some (args, rest) := by
  have hclose : splitGroup (0 + 1) (rparen :: rest) = some ([], rest) := rfl
  rw [h 0, hclose, Option.map_some, List.append_nil]

lemma group (h : Balanced args) : Balanced (lparen :: (args ++ [rparen])) := by
  intro depth more
  have hopen : nextDepth lparen (depth + 1) = depth + 1 + 1 := rfl
  have hclose : nextDepth rparen (depth + 1 + 1) = depth + 1 := rfl
  rw [List.cons_append, splitGroup, hopen, if_neg (Nat.succ_ne_zero _), List.append_assoc, h,
    List.singleton_append, splitGroup, hclose, if_neg (Nat.succ_ne_zero _), Option.map_map,
    Option.map_map]
  congr 1
  funext r
  simp

end Balanced

variable {loose op : Op} {ctx : TestCtx}

lemma Operand.ne (w : Operand) :
    w.text ≠ bang ∧ w.text ≠ lparen ∧ w.text ≠ rparen ∧ ∀ op : Op, w.text ≠ op.token := by
  have hw := w.unreserved
  simp only [List.mem_cons, List.not_mem_nil, or_false, not_or] at hw
  obtain ⟨hbang, hlparen, hrparen, hand, hor⟩ := hw
  refine ⟨hbang, hlparen, hrparen, fun op => ?_⟩
  cases op with
  | and => exact hand
  | or => exact hor

lemma Operand.balanced (w : Operand) : Balanced [w.text] := .singleton w.ne.2.1 w.ne.2.2.1

lemma Op.balanced (op : Op) : Balanced [op.token] := by
  cases op <;> exact .singleton (by decide) (by decide)

lemma Primary.balanced : ∀ p : Primary, Balanced p.args
  | .word w => w.balanced
  | .unary op arg => op.balanced.append arg.balanced
  | .binary left op right => left.balanced.append (op.balanced.append right.balanced)

mutual

lemma Expr.balanced : ∀ e : Expr, Balanced (e.args loose)
  | .last term => term.balanced
  | .cons term rest => term.balanced.append (loose.balanced.append rest.balanced)

lemma Term.balanced : ∀ t : Term, Balanced (t.args loose)
  | .last factor => factor.balanced
  | .cons factor rest => factor.balanced.append (loose.other.balanced.append rest.balanced)

lemma Factor.balanced : ∀ f : Factor, Balanced (f.args loose)
  | .not factor => (Balanced.singleton (by decide) (by decide)).append factor.balanced
  | .group expr => expr.balanced.group
  | .primary primary => primary.balanced

end

/-! ### Splits -/

lemma splitOperator_eq_none {args : List Text} (h : op.token ∉ args) :
    splitOperator op args = none := by
  fun_induction splitOperator op args with
  | case1 => rfl
  | case2 => rfl
  | case3 next args => exact absurd List.mem_cons_self h
  | case4 arg next args harg ih =>
    rw [ih fun hmem => h (List.mem_cons_of_mem _ hmem)]
    rfl

/-- The split is at the first operator that is not the last argument. -/
lemma splitOperator_append {left right : List Text} (hleft : op.token ∉ left)
    (hright : right ≠ []) :
    splitOperator op (left ++ op.token :: right) = some (left, right) := by
  obtain ⟨next, more, rfl⟩ := List.exists_cons_of_ne_nil hright
  induction left with
  | nil =>
    rw [List.nil_append, splitOperator]
    exact if_pos rfl
  | cons arg left ih =>
    obtain ⟨harg, hleft⟩ := not_or.mp (List.mem_cons.not.mp hleft)
    obtain ⟨second, args, hargs⟩ : ∃ second args,
        left ++ op.token :: next :: more = second :: args := by
      cases left <;> exact ⟨_, _, rfl⟩
    have ih := ih hleft
    rw [List.cons_append, hargs] at *
    rw [splitOperator, if_neg (Ne.symm harg), ih]
    rfl

/-! ### One step of the evaluation -/

section

variable {args inner rest left right : List Text}

lemma evaluate_bang (args : List Text) : evaluate ctx (bang :: args) = !evaluate ctx args := by
  rw [evaluate]
  exact if_pos rfl

lemma evaluate_group (h : openGroup (lparen :: args) = some (inner, [])) :
    evaluate ctx (lparen :: args) = evaluate ctx inner := by
  rw [evaluate, if_neg (by decide)]
  split
  · rename_i heq
    rw [h] at heq
    cases heq
    rfl
  all_goals
    rename_i heq
    rw [h] at heq
    cases heq

lemma evaluate_group_operator (h : openGroup (lparen :: args) = some (inner, op.token :: rest))
    (hrest : rest ≠ []) :
    evaluate ctx (lparen :: args) = op.apply (evaluate ctx inner) (evaluate ctx rest) := by
  obtain ⟨next, more, rfl⟩ := List.exists_cons_of_ne_nil hrest
  rw [evaluate, if_neg (by decide)]
  split
  · rename_i heq
    rw [h] at heq
    cases heq
  · rename_i heq
    rw [h] at heq
    cases heq
  · rename_i heq
    rw [h] at heq
    cases heq
    cases op <;> rfl
  · rename_i heq
    rw [h] at heq
    cases heq

variable (w : Operand)

/-- An operand at the front is neither negated nor in a group. -/
lemma evaluate_operand (args : List Text) :
    evaluate ctx (w.text :: args) =
      match args with
      | [] => !w.text.isEmpty
      | [operand] => unaryTest ctx w.text operand
      | op :: operand :: more =>
        match splitOperator .and (op :: operand :: more) with
        | some (left, right) => evaluate ctx (w.text :: left) && evaluate ctx right
        | none =>
          match splitOperator .or (op :: operand :: more) with
          | some (left, right) => evaluate ctx (w.text :: left) || evaluate ctx right
          | none => if more = [] then binaryTest w.text op operand else false := by
  have hgroup : openGroup (w.text :: args) = none := if_neg w.ne.2.1
  rw [evaluate, if_neg w.ne.1]
  split <;> rename_i heq <;> rw [hgroup] at heq <;> cases heq
  obtain _ | ⟨op, _ | ⟨operand, more⟩⟩ := args
  · rfl
  · rfl
  · dsimp only
    split
    · rename_i hand
      simp only [hand]
    · rename_i hand
      simp only [hand]
      split <;> rename_i hor <;> simp only [hor]

lemma exists_of_splitOperator (h : splitOperator op args = some (left, right)) :
    ∃ arg next more, args = arg :: next :: more := by
  fun_cases splitOperator op args with
  | case1 => cases h
  | case2 => cases h
  | case3 next more => exact ⟨_, _, _, rfl⟩
  | case4 arg next more => exact ⟨_, _, _, rfl⟩

/-- The first `-a` is split at. -/
lemma evaluate_split_and (h : splitOperator .and args = some (left, right)) :
    evaluate ctx (w.text :: args) = (evaluate ctx (w.text :: left) && evaluate ctx right) := by
  obtain ⟨arg, next, more, rfl⟩ := exists_of_splitOperator h
  rw [evaluate_operand]
  simp only [h]

/-- Without a `-a` the first `-o` is split at. -/
lemma evaluate_split_or (hand : splitOperator .and args = none)
    (h : splitOperator .or args = some (left, right)) :
    evaluate ctx (w.text :: args) = (evaluate ctx (w.text :: left) || evaluate ctx right) := by
  obtain ⟨arg, next, more, rfl⟩ := exists_of_splitOperator h
  rw [evaluate_operand]
  simp only [hand, h]

lemma evaluate_binary (op right : Operand) :
    evaluate ctx [w.text, op.text, right.text] = binaryTest w.text op.text right.text := by
  have hnone (o : Op) : splitOperator o [op.text, right.text] = none := by
    refine splitOperator_eq_none fun hmem => ?_
    simp only [List.mem_cons, List.not_mem_nil, or_false] at hmem
    obtain heq | heq := hmem
    · exact op.ne.2.2.2 o heq.symm
    · exact right.ne.2.2.2 o heq.symm
  rw [evaluate_operand]
  simp only [hnone, if_true]

lemma evaluate_primary : ∀ p : Primary, evaluate ctx p.args = p.value ctx
  | .word w => evaluate_operand w []
  | .unary op arg => evaluate_operand op [arg.text]
  | .binary left op right => evaluate_binary left op right

end

/-! ### Expressions -/

lemma Primary.args_eq (p : Primary) :
    ∃ (w : Operand) (args : List Text), p.args = w.text :: args ∧ ∀ op : Op, op.token ∉ args := by
  cases p with
  | word w => exact ⟨w, [], rfl, by simp⟩
  | unary op arg =>
    refine ⟨op, [arg.text], rfl, fun o => ?_⟩
    simpa using Ne.symm (arg.ne.2.2.2 o)
  | binary left op right =>
    refine ⟨left, [op.text, right.text], rfl, fun o => ?_⟩
    simp [Ne.symm (op.ne.2.2.2 o), Ne.symm (right.ne.2.2.2 o)]

lemma Factor.args_ne_nil : ∀ f : Factor, f.args loose ≠ []
  | .not _ => by simp [Factor.args]
  | .group _ => by simp [Factor.args]
  | .primary p => by
    obtain ⟨w, args, hargs, -⟩ := p.args_eq
    simp [Factor.args, hargs]

lemma Term.args_ne_nil : ∀ t : Term, t.args loose ≠ []
  | .last factor => factor.args_ne_nil
  | .cons _ _ => by simp [Term.args]

lemma Expr.args_ne_nil : ∀ e : Expr, e.args loose ≠ []
  | .last term => term.args_ne_nil
  | .cons _ _ => by simp [Expr.args]

lemma openGroup_group (e : Expr) (rest : List Text) :
    openGroup (lparen :: (e.args loose ++ rparen :: rest)) = some (e.args loose, rest) := by
  rw [openGroup, if_pos rfl]
  exact e.balanced.splitGroup_eq rest

lemma evaluate_group_args (e : Expr) :
    evaluate ctx ((Factor.group e).args loose) = evaluate ctx (e.args loose) :=
  evaluate_group (openGroup_group e [])

/-- A group at the front takes all that is behind its operator for the other operand. -/
lemma evaluate_group_append (e : Expr) {rest : List Text} (hrest : rest ≠ []) :
    evaluate ctx ((Factor.group e).args loose ++ op.token :: rest) =
      op.apply (evaluate ctx ((Factor.group e).args loose)) (evaluate ctx rest) := by
  have hgroup : openGroup (lparen :: (e.args loose ++ rparen :: op.token :: rest)) = _ :=
    openGroup_group e (op.token :: rest)
  have hargs : (Factor.group e).args loose ++ op.token :: rest =
      lparen :: (e.args loose ++ rparen :: op.token :: rest) := by
    simp [Factor.args]
  rw [hargs, evaluate_group_operator hgroup hrest, evaluate_group_args]

/-- Behind a primary the first `-a` is split at, wherever it stands. -/
lemma evaluate_primary_and (p : Primary) {middle rest : List Text}
    (hmiddle : Op.and.token ∉ middle) (hrest : rest ≠ []) :
    evaluate ctx (p.args ++ middle ++ Op.and.token :: rest) =
      (evaluate ctx (p.args ++ middle) && evaluate ctx rest) := by
  obtain ⟨w, args, hargs, hoperators⟩ := p.args_eq
  have hsplit : splitOperator .and (args ++ middle ++ Op.and.token :: rest) =
      some (args ++ middle, rest) := by
    refine splitOperator_append (fun hmem => ?_) hrest
    obtain hmem | hmem := List.mem_append.mp hmem
    · exact hoperators .and hmem
    · exact hmiddle hmem
  rw [hargs, List.cons_append, List.cons_append, evaluate_split_and w hsplit]

/-- Behind a primary a `-o` is split at where there is no `-a`. -/
lemma evaluate_primary_or (p : Primary) {rest : List Text} (hand : Op.and.token ∉ rest)
    (hrest : rest ≠ []) :
    evaluate ctx (p.args ++ Op.or.token :: rest) =
      (evaluate ctx p.args || evaluate ctx rest) := by
  obtain ⟨w, args, hargs, hoperators⟩ := p.args_eq
  have hnone : splitOperator .and (args ++ Op.or.token :: rest) = none := by
    refine splitOperator_eq_none fun hmem => ?_
    obtain hmem | hmem := List.mem_append.mp hmem
    · exact hoperators .and hmem
    · obtain heq | hmem := List.mem_cons.mp hmem
      · exact absurd heq (by decide)
      · exact hand hmem
  have hsplit : splitOperator .or (args ++ Op.or.token :: rest) = some (args, rest) :=
    splitOperator_append (hoperators .or) hrest
  rw [hargs, List.cons_append, evaluate_split_or w hnone hsplit]

mutual

lemma evaluate_args : ∀ e : Expr, e.WellPlaced → evaluate ctx (e.args .and) = e.value .and ctx
  | .last term, h => evaluate_term term h
  | .cons term rest, h => by
    have hterm := evaluate_term term
    have hrest := evaluate_args rest
    have hne : rest.args .and ≠ [] := rest.args_ne_nil
    cases term with
    | last factor =>
      obtain ⟨hfactor, hnot, hwell⟩ := h
      have hterm := hterm hfactor
      cases factor with
      | not f => exact absurd rfl (hnot f)
      | group e =>
        rw [Expr.args, Expr.value, ← hterm, ← hrest hwell]
        exact evaluate_group_append e hne
      | primary p =>
        have hsplit : evaluate ctx (p.args ++ [] ++ Op.and.token :: rest.args .and) = _ :=
          evaluate_primary_and p List.not_mem_nil hne
        rw [List.append_nil] at hsplit
        rw [Expr.args, Expr.value, ← hterm, ← hrest hwell]
        exact hsplit
    | cons factor more =>
      obtain ⟨hwellTerm, hgroup, hwell⟩ := h
      have hterm := hterm hwellTerm
      obtain ⟨-, hnot, -, hmore⟩ := hwellTerm
      cases factor with
      | not f => exact absurd rfl (hnot f)
      | group e => exact absurd rfl (hgroup e)
      | primary p =>
        have hmiddle : Op.and.token ∉ Op.or.token :: more.args .and := by
          intro hmem
          obtain heq | hmem := List.mem_cons.mp hmem
          · exact absurd heq (by decide)
          · exact hmore ⟨p, rfl⟩ hmem
        rw [Expr.args, Expr.value, ← hterm, ← hrest hwell]
        exact evaluate_primary_and p hmiddle hne

lemma evaluate_term : ∀ t : Term, t.WellPlaced → evaluate ctx (t.args .and) = t.value .and ctx
  | .last factor, h => evaluate_factor factor h
  | .cons factor rest, h => by
    obtain ⟨hwell, hnot, hwellRest, hmore⟩ := h
    have hfactor := evaluate_factor factor hwell
    have hrest := evaluate_term rest hwellRest
    have hne : rest.args .and ≠ [] := rest.args_ne_nil
    rw [Term.args, Term.value, ← hfactor, ← hrest]
    cases factor with
    | not f => exact absurd rfl (hnot f)
    | group e => exact evaluate_group_append e hne
    | primary p => exact evaluate_primary_or p (hmore ⟨p, rfl⟩) hne

lemma evaluate_factor :
    ∀ f : Factor, f.WellPlaced → evaluate ctx (f.args .and) = f.value .and ctx
  | .not factor, h => by
    rw [Factor.args, evaluate_bang, evaluate_factor factor h]
    rfl
  | .group expr, h => by
    rw [Factor.args, evaluate_group (openGroup_group expr []), evaluate_args expr h]
    rfl
  | .primary p, _ => evaluate_primary p

end

/-- Where the operators are well placed, an expression has its value, `-a` being looser than
`-o`. -/
theorem evaluate_eq_value (e : Expr) (h : e.WellPlaced) :
    evaluate ctx (e.args .and) = e.value .and ctx := evaluate_args e h

/-- `"" -a b -o c` is false. -/
theorem evaluate_eq_value_mixed :
    evaluate ⟨fun _ => false, fun _ => false, fun _ => false, fun _ => none⟩
      [[], "-a".toList, "b".toList, "-o".toList, "c".toList] = false :=
  let operand (c : Text) (hc : c ∉ [bang, lparen, rparen, Op.and.token, Op.or.token]) : Factor :=
    .primary (.word ⟨c, hc⟩)
  evaluate_eq_value
    (.cons (.last (operand [] (by decide)))
      (.last (.cons (operand "b".toList (by decide)) (.last (operand "c".toList (by decide))))))
    ⟨trivial, by simp [operand], trivial, by simp [operand], trivial,
      fun _ => by simp [Term.args, Factor.args, Primary.args, operand]; decide⟩

end AmlaSandbox.Commands.TestCmd
