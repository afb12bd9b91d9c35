import ClosedForm.Proofs.Pool
import ClosedForm.Proofs.Results
import ClosedForm.Text.Source

/-!
# What source text stands for

`Formula.lower` is the expression that a formula states, computed without a pool.
`Formula.store_spec` says that storing a formula gives a handle of that expression, or the same
fault; `Pool.parse_spec` and `Pool.parseEquation_spec` say so of whole texts.
-/

namespace ClosedForm

namespace Pool

/-! ## Storing that may fail -/

/-- From a well-formed pool the action goes to a well-formed one by storing nodes and ends as
`result` does: with a value that `post` relates to the one of `result`, or with the same
error. -/
def StoresAs {α β : Type} (pool : Pool) (action : Storing α) (result : Except Error β)
    (post : β → α → Pool → Prop) : Prop :=
  (action.run.run pool).2.WellFormed ∧ pool.Grows (action.run.run pool).2 ∧
    match result with
    | .ok b => ∃ a, (action.run.run pool).1 = .ok a ∧ post b a (action.run.run pool).2
    | .error e => (action.run.run pool).1 = .error e

variable {α β γ δ : Type} {pool : Pool}

theorem StoresAs.pure (hpool : pool.WellFormed) {a : α} {b : β} {post : β → α → Pool → Prop}
    (h : post b a pool) : StoresAs pool (Pure.pure a) (.ok b) post :=
  ⟨hpool, .refl, a, rfl, h⟩

theorem StoresAs.throw (hpool : pool.WellFormed) {e : Error} {post : β → α → Pool → Prop} :
    StoresAs pool (throw e) (.error e) post :=
  ⟨hpool, .refl, rfl⟩

theorem StoresAs.lift {action : StateM Pool α} {b : β} {mid : α → Pool → Prop}
    {post : β → α → Pool → Prop} (h : Stores pool action mid)
    (hpost : ∀ a later, mid a later → post b a later) :
    StoresAs pool (liftM action) (.ok b) post :=
  ⟨h.1, h.2.1, _, rfl, hpost _ _ h.2.2⟩

theorem StoresAs.bind {action : Storing α} {result : Except Error β} {mid : β → α → Pool → Prop}
    {next : α → Storing γ} {nextResult : β → Except Error δ} {post : δ → γ → Pool → Prop}
    (h : StoresAs pool action result mid)
    (hnext : ∀ b a later, later.WellFormed → pool.Extends later → mid b a later →
      StoresAs later (next a) (nextResult b) post) :
    StoresAs pool (action >>= next) (result >>= nextResult) post := by
  obtain ⟨hwf, hgrows, hres⟩ := h
  unfold StoresAs
  rw [ExceptT.run_bind, StateT.run_bind]
  cases result with
  | error e =>
    simp only at hres
    generalize action.run.run pool = ran at *
    obtain ⟨_, later⟩ := ran
    subst hres
    exact ⟨hwf, hgrows, rfl⟩
  | ok b =>
    obtain ⟨a, ha, hmid⟩ := hres
    generalize action.run.run pool = ran at *
    obtain ⟨_, later⟩ := ran
    subst ha
    obtain ⟨hwf', hgrows', hpost⟩ := hnext b a later hwf hgrows.toExtends hmid
    exact ⟨hwf', hgrows.trans hgrows', hpost⟩

/-- The action ends with a handle of the expression that `result` has, or with its error. -/
def Makes (action : Storing Handle) (result : Except Error Expr) : Prop :=
  ∀ pool : Pool, pool.WellFormed → StoresAs pool action result StandsFor

theorem Makes.bind {action : Storing Handle} {result : Except Error Expr}
    {next : Handle → Storing Handle} {nextResult : Expr → Except Error Expr}
    (h : Makes action result)
    (hnext : ∀ (e : Expr) (handle : Handle) (later : Pool), later.WellFormed →
      StandsFor e handle later → StoresAs later (next handle) (nextResult e) StandsFor) :
    Makes (action >>= next) (result >>= nextResult) :=
  fun pool hpool => (h pool hpool).bind fun e handle later hlater _ hh =>
    hnext e handle later hlater hh

/-! ## The builders on handles -/

theorem intern_standsFor (hpool : pool.WellFormed) (node : Node) (h : pool.Has node.children)
    {e : Expr} (he : node.toExpr pool.expr = e) : Stores pool (intern node) (StandsFor e) :=
  (intern_expr hpool node h).mono fun _ _ hh => ⟨hh.1, hh.2.trans he⟩

theorem constant_spec (hpool : pool.WellFormed) (value : Rat) :
    Stores pool (constant value) (StandsFor (.constant value)) :=
  intern_standsFor hpool (.constant value) (by simp [Has, Node.children]) rfl

theorem symbol_spec (hpool : pool.WellFormed) (name : String) :
    Stores pool (symbol name) (StandsFor (.symbol name)) :=
  intern_standsFor hpool (.symbol name) (by simp [Has, Node.children]) rfl

theorem imaginaryUnit_spec (hpool : pool.WellFormed) :
    Stores pool imaginaryUnit (StandsFor .imaginaryUnit) :=
  intern_standsFor hpool (.function .imaginaryUnit []) (by simp [Has, Node.children]) rfl

theorem sum_spec (hpool : pool.WellFormed) {es : List Expr} {handles : List Handle}
    (h : StandFor es handles pool) : Stores pool (sum handles) (StandsFor (.sum es)) := by
  obtain ⟨hhas, rfl⟩ := h
  match handles, hhas with
  | [], _ => exact constant_spec hpool 0
  | [handle], hhas => exact Stores.pure hpool ⟨hhas handle (by simp), rfl⟩
  | x :: y :: rest, hhas => exact intern_standsFor hpool (.add (x :: y :: rest)) hhas rfl

theorem product_spec (hpool : pool.WellFormed) {es : List Expr} {handles : List Handle}
    (h : StandFor es handles pool) : Stores pool (product handles) (StandsFor (.product es)) := by
  obtain ⟨hhas, rfl⟩ := h
  match handles, hhas with
  | [], _ => exact constant_spec hpool 1
  | [handle], hhas => exact Stores.pure hpool ⟨hhas handle (by simp), rfl⟩
  | x :: y :: rest, hhas => exact intern_standsFor hpool (.mul (x :: y :: rest)) hhas rfl

theorem StandsFor.pair {a b : Expr} {x y : Handle} (hx : StandsFor a x pool)
    (hy : StandsFor b y pool) : StandFor [a, b] [x, y] pool := by
  refine ⟨fun h hh => ?_, by simp [hx.2, hy.2]⟩
  rcases List.mem_cons.mp hh with rfl | hh
  · exact hx.1
  · rw [List.mem_singleton.mp hh]
    exact hy.1

theorem pow_spec (hpool : pool.WellFormed) {a b : Expr} {x y : Handle} (hx : StandsFor a x pool)
    (hy : StandsFor b y pool) : Stores pool (pow x y) (StandsFor (.pow a b)) :=
  intern_standsFor hpool (.pow x y) (hx.pair hy).1 (by simp [Node.toExpr, hx.2, hy.2])

theorem neg_spec (hpool : pool.WellFormed) {e : Expr} {handle : Handle}
    (h : StandsFor e handle pool) : Stores pool (neg handle) (StandsFor e.neg) :=
  (constant_spec hpool (-1)).bind fun _ _ hlater hext hone =>
    product_spec hlater (hone.pair (h.mono hpool hlater hext))

theorem inverse_spec (hpool : pool.WellFormed) {e : Expr} {handle : Handle}
    (h : StandsFor e handle pool) : Stores pool (inverse handle) (StandsFor e.inverse) :=
  (constant_spec hpool (-1)).bind fun _ _ hlater hext hone =>
    pow_spec hlater (h.mono hpool hlater hext) hone

theorem sub_spec (hpool : pool.WellFormed) {a b : Expr} {x y : Handle} (hx : StandsFor a x pool)
    (hy : StandsFor b y pool) : Stores pool (sub x y) (StandsFor (a.sub b)) :=
  (neg_spec hpool hy).bind fun _ _ hlater hext hneg =>
    sum_spec hlater ((hx.mono hpool hlater hext).pair hneg)

theorem div_spec (hpool : pool.WellFormed) {a b : Expr} {x y : Handle} (hx : StandsFor a x pool)
    (hy : StandsFor b y pool) : Stores pool (div x y) (StandsFor (a.div b)) :=
  (inverse_spec hpool hy).bind fun _ _ hlater hext hinverse =>
    product_spec hlater ((hx.mono hpool hlater hext).pair hinverse)

end Pool

namespace Formula

/-! ## Formulas -/

/-- What a name applied to arguments states. -/
def lowerCall (offset : Nat) (name : String) (arguments : List Expr) : Except Error Expr :=
  if name == squareRootName then
    match arguments with
    | [radicand] => .ok (.pow radicand (.constant (mkRat 1 2)))
    | _ => .error (.parse offset (.wrongArity squareRootName 1 arguments.length))
  else
    match Func.ofName? name with
    | some head =>
      if arguments.length = head.arity then .ok (.function head arguments)
      else .error (.parse offset (.wrongArity head.name head.arity arguments.length))
    | none => .error (.parse offset .expectedOperand)

mutual

/-- The expression that a formula states. -/
def lower : Formula → Except Error Expr
  | number value => .ok (.constant value)
  | name text => .ok (if text == imaginaryUnitName then .imaginaryUnit else .symbol text)
  | negative (number value) => .ok (.constant (-value))
  | negative operand => do
    let e ← lower operand
    .ok e.neg
  | sum terms => do
    let es ← lowerList terms
    .ok (.sum es)
  | subtracted term => do
    let e ← lower term
    .ok e.neg
  | product factors => do
    let es ← lowerList factors
    .ok (.product es)
  | divisor factor => do
    let e ← lower factor
    .ok e.inverse
  | power base exponent => do
    let b ← lower base
    let x ← lower exponent
    .ok (.pow b x)
  | call offset function arguments => do
    let es ← lowerList arguments
    lowerCall offset function es

/-- The expressions that formulas state, or the first fault. -/
def lowerList : List Formula → Except Error (List Expr)
  | [] => .ok []
  | f :: fs => do
    let e ← lower f
    let es ← lowerList fs
    .ok (e :: es)

end

open Pool

theorem storeCall_spec {pool : Pool} (hpool : pool.WellFormed) (offset : Nat) (name : String)
    {es : List Expr} {handles : List Handle} (h : StandFor es handles pool) :
    StoresAs pool (storeCall offset name handles) (lowerCall offset name es) StandsFor := by
  have hlength : handles.length = es.length := by rw [← h.2, List.length_map]
  unfold storeCall lowerCall
  split
  · match handles, es, h with
    | [], [], _ => exact StoresAs.throw hpool
    | [x], [a], h =>
      have hx : StandsFor a x pool := ⟨h.1 x (by simp), by simpa using h.2⟩
      have hhalf : StoresAs pool (liftM (constant (mkRat 1 2))) (.ok ()) fun _ =>
          StandsFor (.constant (mkRat 1 2)) :=
        StoresAs.lift (constant_spec hpool _) fun _ _ h => h
      have hroot : StoresAs pool (liftM (constant (mkRat 1 2)) >>= fun half => liftM (pow x half))
          (.ok () >>= fun _ => .ok (a.pow (.constant (mkRat 1 2)))) StandsFor :=
        hhalf.bind fun _ half later hlater hext hhalf =>
          StoresAs.lift (pow_spec hlater (hx.mono hpool hlater hext) hhalf) fun _ _ h => h
      exact hroot
    | _ :: _ :: _, _ :: _ :: _, _ =>
      simp only [List.length_cons] at hlength ⊢
      rw [hlength]
      exact StoresAs.throw hpool
  · cases Func.ofName? name with
    | none => exact StoresAs.throw hpool
    | some head =>
      simp only [hlength]
      split
      · exact StoresAs.lift (intern_standsFor hpool (.function head handles) h.1
          (by rw [Node.toExpr, h.2])) fun _ _ h => h
      · exact StoresAs.throw hpool

/-- A builder on one handle after an action that makes an expression. -/
theorem makes_unary {action : Storing Handle} {result : Except Error Expr}
    {build : Handle → StateM Pool Handle} {head : Expr → Expr} (h : Makes action result)
    (hbuild : ∀ (e : Expr) (handle : Handle) (later : Pool), later.WellFormed →
      StandsFor e handle later → Stores later (build handle) (StandsFor (head e))) :
    Makes (do let handle ← action; build handle) (do let e ← result; .ok (head e)) :=
  h.bind fun e handle later hlater hh =>
    StoresAs.lift (hbuild e handle later hlater hh) fun _ _ h => h

mutual

/-- Storing a formula gives a handle of the expression it states, or the same fault. -/
theorem store_spec : (f : Formula) → Makes f.store f.lower
  | number value => fun pool hpool => by
    rw [store, lower]
    exact StoresAs.lift (constant_spec hpool value) fun _ _ h => h
  | name text => fun pool hpool => by
    rw [store, lower]
    split
    · exact StoresAs.lift (imaginaryUnit_spec hpool) fun _ _ h => h
    · exact StoresAs.lift (symbol_spec hpool text) fun _ _ h => h
  | negative operand => by
    have ih := store_spec operand
    cases operand with
    | number value =>
      rw [store, lower]
      exact fun pool hpool => StoresAs.lift (constant_spec hpool (-value)) fun _ _ h => h
    | _ =>
      rw [store, lower]
      · exact makes_unary ih fun _ _ _ hlater h => neg_spec hlater h
      all_goals simp
  | sum terms => fun pool hpool => by
    rw [store, lower]
    exact (storeList_spec terms pool hpool).bind fun _ _ _ hlater _ h =>
      StoresAs.lift (sum_spec hlater h) fun _ _ h => h
  | subtracted term => by
    rw [store, lower]
    exact makes_unary (store_spec term) fun _ _ _ hlater h => neg_spec hlater h
  | product factors => fun pool hpool => by
    rw [store, lower]
    exact (storeList_spec factors pool hpool).bind fun _ _ _ hlater _ h =>
      StoresAs.lift (product_spec hlater h) fun _ _ h => h
  | divisor factor => by
    rw [store, lower]
    exact makes_unary (store_spec factor) fun _ _ _ hlater h => inverse_spec hlater h
  | power base exponent => fun pool hpool => by
    rw [store, lower]
    exact (store_spec base pool hpool).bind fun b x later hlater _ hb =>
      (store_spec exponent later hlater).bind fun e y last hlast hext he =>
        StoresAs.lift (pow_spec hlast (hb.mono hlater hlast hext) he) fun _ _ h => h
  | call offset function arguments => fun pool hpool => by
    rw [store, lower]
    exact (storeList_spec arguments pool hpool).bind fun _ _ _ hlater _ h =>
      storeCall_spec hlater offset function h

/-- Storing formulas gives handles of the expressions they state, or the first fault. -/
theorem storeList_spec : (fs : List Formula) → ∀ pool : Pool, pool.WellFormed →
    StoresAs pool (storeList fs) (lowerList fs) StandFor
  | [] => fun pool hpool => by
    rw [storeList, lowerList]
    exact StoresAs.pure hpool ⟨by simp [Has], rfl⟩
  | f :: fs => fun pool hpool => by
    rw [storeList, lowerList]
    refine (store_spec f pool hpool).bind fun e handle later hlater _ hh =>
      (storeList_spec fs later hlater).bind fun es handles last hlast hext hhs =>
        StoresAs.pure hlast ?_
    have hh' := hh.mono hlater hlast hext
    refine ⟨fun h hmem => ?_, by simp [hh'.2, hhs.2]⟩
    rcases List.mem_cons.mp hmem with rfl | hmem
    · exact hh'.1
    · exact hhs.1 h hmem

end

/-- The expression that a text states. -/
def read (text : String) : Except Error Expr := do
  let formula ← parse text
  formula.lower

end Formula

namespace Pool

/-! ## Texts -/

/-- Reading a text gives a handle of the expression it states, or the same fault. -/
theorem parse_spec (text : String) : Makes (parse text) (Formula.read text) := by
  intro pool hpool
  unfold parse Formula.read
  cases Formula.parse text with
  | error e => exact ⟨hpool, .refl, rfl⟩
  | ok formula => exact formula.store_spec pool hpool

theorem storesAs_mapError {α β : Type} {pool : Pool} {action : Storing α}
    {result : Except Error β} {post : β → α → Pool → Prop} {f : Error → Error}
    (h : StoresAs pool action result post) :
    StoresAs pool (tryCatch action fun e => throw (f e)) (result.mapError f) post := by
  obtain ⟨hwf, hgrows, hres⟩ := h
  rcases hran : action.run.run pool with ⟨value, later⟩
  rw [hran] at hwf hgrows hres
  cases result with
  | error e =>
    cases hres
    unfold StoresAs
    rw [run_tryCatch_of_error hran]
    exact ⟨hwf, hgrows, rfl⟩
  | ok b =>
    obtain ⟨a, rfl, hpost⟩ := hres
    unfold StoresAs
    rw [run_tryCatch_of_ok hran]
    exact ⟨hwf, hgrows, a, rfl, hpost⟩

/-- The expression that an equation states, as the difference of its sides. -/
def readEquation (text : String) : Except Error Expr :=
  let left := text.toList.takeWhile (· ≠ '=')
  match text.toList.dropWhile (· ≠ '=') with
  | [] => Formula.read text
  | _ :: right =>
    let start := Token.byteLength left + 1
    if right.contains '=' then
      .error (.parse (start + Token.byteLength (right.takeWhile (· ≠ '='))) .repeatedEquals)
    else do
      let a ← Formula.read (String.ofList left)
      let b ← (Formula.read (String.ofList right)).mapError (shiftOffset start)
      .ok (a.sub b)

/-- Reading an equation gives a handle of the expression it states, or the same fault. -/
theorem parseEquation_spec (text : String) : Makes (parseEquation text) (readEquation text) := by
  intro pool hpool
  unfold parseEquation readEquation
  dsimp only
  cases text.toList.dropWhile (· ≠ '=') with
  | nil => exact parse_spec text pool hpool
  | cons _ right =>
    by_cases htwo : right.contains '='
    · simp only [htwo, if_true]
      exact StoresAs.throw hpool
    · simp only [htwo]
      exact (parse_spec _ pool hpool).bind fun a x later hlater _ ha =>
        (storesAs_mapError (parse_spec _ later hlater)).bind fun b y last hlast hext hb =>
          StoresAs.lift (sub_spec hlast (ha.mono hlater hlast hext) hb) fun _ _ h => h

end Pool

end ClosedForm
