import ClosureCode.Proofs.Renaming
import ClosureCode.Proofs.TopLevelLets

/-! What a run of the compiler comes to: the nodes below the one that it is for, each with the compiler as it is
when its turn comes. A failure there is the failure of the whole run. -/
namespace ClosureCode

namespace Compile
variable {α β : Type} {x : Compile α} {f : α → Compile β} {c c' : Compiler}

def enter (name : Option String) (parameters : List Binder) : Compile Unit :=
  fun c => .ok () (c.enterFunction name parameters)

theorem bindRan {b : β} (ran : (x >>= f) c = .ok b c') : ∃ a c₁, x c = .ok a c₁ ∧ f a c₁ = .ok b c' := by
  cases first : x c with
  | error e c₁ =>
      rw [bindError first] at ran
      cases ran
  | ok a c₁ =>
      rw [bindOk first] at ran
      exact ⟨a, c₁, rfl, ran⟩

end Compile

namespace Compiler
variable {n : Node} {c c' : Compiler} {e : CompileError}

theorem compileOk (ran : Compile.node n c = .ok () c') : c.compile n = (none, c') := by
  unfold compile
  rw [ran]

theorem compileError (failed : Compile.node n c = .error e c') : c.compile n = (some e, c') := by
  unfold compile
  rw [failed]

theorem compiled (fine : (c.compile n).1 = none) : ∃ c', Compile.node n c = .ok () c' := by
  cases ran : Compile.node n c with
  | ok u c' => exact ⟨c', rfl⟩
  | error e c' =>
      rw [compileError ran] at fine
      cases fine

theorem notCompiled (failure : (c.compile n).1 = some e) : ∃ c', Compile.node n c = .error e c' := by
  cases ran : Compile.node n c with
  | ok u c' =>
      rw [compileOk ran] at failure
      cases failure
  | error e' c' =>
      rw [compileError ran] at failure
      cases failure
      exact ⟨c', rfl⟩

end Compiler

/- Each of some nodes, with what is done before it when they are compiled in turn. -/
def inTurn : List Node → List (Compile Unit × Node)
  | [] => []
  | n :: rest => (pure (), n) :: (inTurn rest).map fun stage => (Compile.node n >>= fun _ => stage.1, stage.2)

/- The parts of a node, each with all that is done for the node before it. -/
def Node.stages : Node → List (Compile Unit × Node)
  | n@(.expression (.conditional condition consequence alternative _)) =>
      let arm := Compile.block consequence >>= fun _ => Compile.finishBranch n
      let first := Compile.expr condition >>= fun _ => Compile.emitJump n .jumpUnlessTruthy >>= fun _ => pure ()
      let second := Compile.expr condition >>= fun _ => Compile.firstArm n arm >>= fun _ => pure ()
      (pure (), .expression condition) :: (first, .block consequence) ::
        alternative.toList.map fun other => (second, .block other)
  | .expression (.function name parameters body _) => [(Compile.enter name parameters, .block body)]
  | n => inTurn n.children

/- The nodes that are come to while `top` is compiled, and the compiler as it is then. -/
inductive Visits (top : Node) (start : Compiler) : Node → Compiler → Prop where
  | top : Visits top start top start
  | part {n c before m c'} (above : Visits top start n c) (stage : (before, m) ∈ n.stages)
      (done : before c = .ok () c') : Visits top start m c'

namespace Compile

def all : List Node → Compile Unit
  | [] => pure ()
  | n :: rest => node n >>= fun _ => all rest

theorem exprsAll (es : List Expr) : exprs es = all (es.map .expression) := by
  induction es with
  | nil =>
      unfold exprs
      rfl
  | cons e rest ih =>
      unfold exprs
      rw [ih]
      rfl

theorem pairsAll (pairs : List (Expr × Expr)) : keysAndValues pairs = all (pairNodes pairs) := by
  induction pairs with
  | nil =>
      unfold keysAndValues
      rfl
  | cons pair rest ih =>
      obtain ⟨key, value⟩ := pair
      unfold keysAndValues
      rw [ih]
      rfl

theorem stmtsAll (statements : List Stmt) : stmts statements = all (statements.map .statement) := by
  induction statements with
  | nil =>
      unfold stmts
      rfl
  | cons s rest ih =>
      unfold stmts
      rw [ih]
      rfl

theorem allOne (n : Node) (last : Compile Unit) : (node n >>= fun _ => last) = all [n] >>= fun _ => last := by
  simp only [all, bind_assoc, pure_bind]

theorem allTwo (n m : Node) (last : Compile Unit) :
    (node n >>= fun _ => node m >>= fun _ => last) = all [n, m] >>= fun _ => last := by
  simp only [all, bind_assoc, pure_bind]

theorem allMore (n : Node) (ns : List Node) (last : Compile Unit) :
    (node n >>= fun _ => all ns >>= fun _ => last) = all (n :: ns) >>= fun _ => last := by
  simp only [all, bind_assoc]

end Compile

section Parts
variable {before : Compile Unit} {n m : Node} {ns : List Node} {c c' c'' : Compiler} {e : CompileError}

theorem inTurnFails (stage : (before, m) ∈ inTurn ns) (done : before c = .ok () c')
    (failed : Compile.node m c' = .error e c'') : Compile.all ns c = .error e c'' := by
  induction ns generalizing before c with
  | nil => cases stage
  | cons n rest ih =>
      unfold Compile.all
      cases List.mem_cons.mp stage with
      | inl here =>
          cases here
          cases done
          exact Compile.bindError failed
      | inr later =>
          obtain ⟨⟨next, part⟩, place, same⟩ := List.mem_map.mp later
          cases same
          obtain ⟨u, c₁, ran, done⟩ := Compile.bindRan done
          rw [Compile.bindOk ran]
          exact ih place done

theorem partFails {x last : Compile Unit} (stage : (before, m) ∈ inTurn ns) (done : before c = .ok () c')
    (failed : Compile.node m c' = .error e c'') (same : x = Compile.all ns >>= fun _ => last) :
    ∃ c₁, x c = .error e c₁ := by
  rw [same]
  exact ⟨c'', Compile.bindError (inTurnFails stage done failed)⟩

theorem stmtsFail {statements : List Stmt} (stage : (before, m) ∈ inTurn (statements.map .statement))
    (done : before c = .ok () c') (failed : Compile.node m c' = .error e c'') :
    ∃ c₁, Compile.stmts statements c = .error e c₁ := by
  rw [Compile.stmtsAll]
  exact ⟨c'', inTurnFails stage done failed⟩

theorem Stmt.stageFails {s : Stmt} (stage : (before, m) ∈ (Node.statement s).stages) (done : before c = .ok () c')
    (failed : Compile.node m c' = .error e c'') : ∃ c₁, Compile.stmt s c = .error e c₁ := by
  cases s with
  | binding target value span | returning value span | expression value span =>
      unfold Compile.stmt
      exact partFails stage done failed (Compile.allOne (.expression value) _)

theorem conditionalArms (condition : Expr) (consequence : Block) (alternative : Option Block) (span : Span) :
    let n := Node.expression (.conditional condition consequence alternative span)
    Compile.node n = Compile.expr condition >>= fun _ =>
      Compile.firstArm n (Compile.block consequence >>= fun _ => Compile.finishBranch n) >>= fun toEnd =>
        Compile.otherwise n alternative >>= fun _ => Compile.patchJump n .jump toEnd := by
  simp only [Compile.node, Compile.firstArm, bind_assoc, pure_bind]
  rw [Compile.expr]

/- A conditional has jumps between its parts. -/
theorem conditionalStageFails {condition : Expr} {consequence : Block} {alternative : Option Block} {span : Span}
    (stage : (before, m) ∈ (Node.expression (.conditional condition consequence alternative span)).stages)
    (done : before c = .ok () c') (failed : Compile.node m c' = .error e c'') :
    ∃ c₁, Compile.node (.expression (.conditional condition consequence alternative span)) c = .error e c₁ := by
  rw [conditionalArms]
  cases List.mem_cons.mp stage with
  | inl first =>
      cases first
      cases done
      exact ⟨c'', Compile.bindError failed⟩
  | inr more =>
      cases List.mem_cons.mp more with
      | inl second =>
          cases second
          obtain ⟨u, c₁, tested, done⟩ := Compile.bindRan done
          obtain ⟨start, c₂, jumped, done⟩ := Compile.bindRan done
          cases done
          rw [Compile.bindOk tested, Compile.firstArm, bind_assoc, Compile.bindOk jumped]
          exact ⟨c'', Compile.bindError (Compile.bindError (Compile.bindError failed))⟩
      | inr third =>
          obtain ⟨other, chosen, same⟩ := List.mem_map.mp third
          obtain rfl := Option.mem_toList.mp chosen
          cases same
          obtain ⟨u, c₁, tested, done⟩ := Compile.bindRan done
          obtain ⟨toEnd, c₂, arm, done⟩ := Compile.bindRan done
          cases done
          rw [Compile.bindOk tested, Compile.bindOk arm]
          unfold Compile.otherwise
          exact ⟨c'', Compile.bindError (Compile.bindError failed)⟩

theorem functionStageFails {name : Option String} {parameters : List Binder} {body : Block} {span : Span}
    (stage : (before, m) ∈ (Node.expression (.function name parameters body span)).stages)
    (done : before c = .ok () c') (failed : Compile.node m c' = .error e c'') :
    ∃ c₁, Compile.expr (.function name parameters body span) c = .error e c₁ := by
  cases List.mem_singleton.mp stage
  cases done
  have inside : (Compile.block body >>= fun _ => Compile.finishBody (.expression (.function name parameters body span)))
      (c.enterFunction name parameters) = .error e c'' := Compile.bindError failed
  unfold Compile.expr Compile.function
  exact ⟨c''.leaveFunction.2, by simp only [inside]⟩

theorem Expr.stageFails {x : Expr} (stage : (before, m) ∈ (Node.expression x).stages) (done : before c = .ok () c')
    (failed : Compile.node m c' = .error e c'') : ∃ c₁, Compile.expr x c = .error e c₁ := by
  cases x with
  | name _ _ | integer _ _ | string _ _ | boolean _ _ => cases stage
  | conditional condition consequence alternative span => exact conditionalStageFails stage done failed
  | function name parameters body span => exact functionStageFails stage done failed
  | unary op operand span =>
      unfold Compile.expr
      exact partFails stage done failed (Compile.allOne (.expression operand) _)
  | binary op left right span =>
      unfold Compile.expr
      exact partFails stage done failed (Compile.allTwo (.expression left) (.expression right) _)
  | call callee arguments span =>
      unfold Compile.expr
      rw [Compile.exprsAll]
      exact partFails stage done failed (Compile.allMore (.expression callee) _ _)
  | array elements span =>
      unfold Compile.expr
      rw [Compile.exprsAll]
      exact partFails stage done failed rfl
  | hash pairs span =>
      unfold Compile.expr
      rw [Compile.pairsAll]
      exact partFails stage done failed rfl
  | index collection position span =>
      unfold Compile.expr
      exact partFails stage done failed (Compile.allTwo (.expression collection) (.expression position) _)

/- Where a part fails, the node fails with the same error. -/
theorem Node.stageFails (stage : (before, m) ∈ n.stages) (done : before c = .ok () c')
    (failed : Compile.node m c' = .error e c'') : ∃ c₁, Compile.node n c = .error e c₁ := by
  cases n with
  | program p => exact stmtsFail stage done failed
  | block b =>
      obtain ⟨statements, span⟩ := b
      unfold Compile.node Compile.block
      exact stmtsFail stage done failed
  | statement s => exact s.stageFails stage done failed
  | expression x => exact x.stageFails stage done failed

/- A failure at any node that is come to is the failure of the whole run. -/
theorem Visits.fails {top : Node} {start : Compiler} (visits : Visits top start n c)
    (failed : Compile.node n c = .error e c') : ∃ c₁, Compile.node top start = .error e c₁ := by
  induction visits generalizing c' with
  | top => exact ⟨c', failed⟩
  | part above stage done ih =>
      obtain ⟨c₁, failed⟩ := Node.stageFails stage done failed
      exact ih failed

end Parts

end ClosureCode
