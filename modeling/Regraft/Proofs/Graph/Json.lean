import Regraft.Graph.Json
import Regraft.Proofs.Graph.Check
import Regraft.Proofs.Json.Document
import Mathlib.Tactic.ByContra

/-
  Graphs as documents. What is read of a written value is worked out part by part (`Returns`): shapes,
  element types and node positions come back, and a tensor does unless one of its values is not finite.
  So a graph is read back from its document when all values of its constants are finite, and its document
  is refused when one is not (`ofText_toText`).
-/

namespace Regraft

open Json

variable {α β : Type} {x : Float} {xs : List Float} {t : Tensor} {node : Node} {g : Graph}

/-- The literal of a double is read as the double. -/
def Json.Faithful (x : Float) : Prop := number (realText x).toList = some (num (.real x), [])

/-- What a reader makes of a value that is written and read. -/
def Json.Returns (read : Json → Option α) (j : Json) (result : Option α) : Prop :=
  ∃ k, Reread j k ∧ read k = result

theorem Json.Returns.list {read : Json → Option β} {write : α → Json} {result : α → Option β}
    {as : List α} (each : ∀ a ∈ as, Returns read (write a) (result a)) :
    Returns (list? read) (arr (as.map write)) (as.mapM result) := by
  suffices ∃ ks, RereadItems (as.map write) ks ∧ ks.mapM read = as.mapM result by
    obtain ⟨ks, items, eq⟩ := this
    exact ⟨arr ks, .arr items, eq⟩
  induction as with
  | nil => exact ⟨[], .nil, rfl⟩
  | cons a as ih =>
    rw [List.forall_mem_cons] at each
    obtain ⟨k, first, eq⟩ := each.1
    obtain ⟨ks, items, eqs⟩ := ih each.2
    refine ⟨k :: ks, .cons first items, ?_⟩
    rw [List.mapM_cons, List.mapM_cons, eq, eqs]

theorem mapM_some (as : List α) : as.mapM (some : α → Option α) = some as :=
  mapM_eq_some_iff.mpr (List.forall₂_same.mpr fun _ _ => rfl)

/-! ## Parts -/

theorem Shape.returns {s : Shape} (sized : ∀ d ∈ s.dims, d < UInt64.size) :
    Returns Shape.ofJson? s.toJson (some s) := by
  obtain ⟨k, reread, eq⟩ : Returns (list? (natural? UInt64.size)) s.toJson (s.dims.mapM some) :=
    Returns.list fun d mem => ⟨_, .natural (sized d mem), if_pos (sized d mem)⟩
  refine ⟨k, reread, ?_⟩
  rw [Shape.ofJson?, eq, mapM_some]
  rfl

theorem NodeId.returns {id : NodeId} (sized : id.index < UInt32.size) :
    Returns NodeId.ofJson? id.toJson (some id) := by
  refine ⟨_, .natural (Nat.lt_trans sized (by decide)), ?_⟩
  rw [NodeId.ofJson?, natural?, if_pos sized]
  rfl

theorem ElemType.ofJson?_toJson (t : ElemType) : ElemType.ofJson? t.toJson = some t := by
  cases t <;> rfl

theorem returns_real (faithful : x.isFinite = true → Faithful x) :
    Returns real? (num (.real x)) (if x.isFinite = true then some x else none) := by
  split
  · rename_i finite
    exact ⟨_, .real (faithful finite), rfl⟩
  · rename_i infinite
    exact ⟨_, .notFinite (Bool.eq_false_iff.mpr infinite), rfl⟩

/-- Entries that are all right, or none. -/
theorem mapM_guard (p : α → Prop) [DecidablePred p] (as : List α) :
    as.mapM (fun a => if p a then some a else none) = if ∀ a ∈ as, p a then some as else none := by
  split
  · rename_i all
    rw [← mapM_some as]
    exact mapM_congr fun a mem => if_pos (all a mem)
  · rename_i some
    rw [Option.eq_none_iff_forall_ne_some]
    intro bs each
    refine some fun a mem => ?_
    obtain ⟨b, -, here⟩ := exists_of_forall₂_right (mapM_eq_some_iff.mp each).flip mem
    by_contra other
    rw [if_neg other] at here
    cases here

/-! ## What can be loaded -/

mutual

/-- Reading what is written changes nothing about how deep it is. -/
theorem Json.Reread.loadable_eq {j k : Json} (h : Reread j k) (depth : Nat) :
    loadable depth k = loadable depth j := by
  cases h with
  | notFinite => simp only [loadable]
  | arr items =>
    cases depth with
    | zero => simp only [loadable]
    | succ depth =>
      rw [loadable, loadable]
      exact items.loadable_eq depth
  | obj fields =>
    cases depth with
    | zero => simp only [loadable]
    | succ depth =>
      rw [loadable, loadable]
      exact fields.loadable_eq depth
  | _ => rfl

theorem Json.RereadItems.loadable_eq {js ks : List Json} (h : RereadItems js ks) (depth : Nat) :
    loadableItems depth ks = loadableItems depth js := by
  cases h with
  | nil => rfl
  | cons first rest => rw [loadableItems, loadableItems, first.loadable_eq, rest.loadable_eq]

theorem Json.RereadFields.loadable_eq {fs gs : List (String × Json)} (h : RereadFields fs gs)
    (depth : Nat) : loadableFields depth gs = loadableFields depth fs := by
  cases h with
  | nil => rfl
  | cons first rest => rw [loadableFields, loadableFields, first.loadable_eq, rest.loadable_eq]

end

theorem loadableItems_map {depth : Nat} (write : α → Number) (as : List α) :
    loadableItems depth (as.map fun a => num (write a)) = true := by
  induction as with
  | nil => rfl
  | cons a as ih =>
    show (true && loadableItems depth (as.map fun a => num (write a))) = true
    rw [ih]
    rfl

theorem Tensor.loadable_toJson (t : Tensor) (depth : Nat) :
    loadable (depth + 2) t.toJson = true := by
  rw [toJson, loadable, loadableFields, loadableFields, loadableFields, Shape.toJson, loadable, loadable,
    loadableItems_map, loadableItems_map]
  rfl

/-! ## Tensors and nodes -/

/-- A tensor is read back unless one of its values is not finite. -/
theorem Tensor.returns (sized : ∀ d ∈ t.shape.dims, d < UInt64.size) (fills : t.fills = true)
    (faithful : ∀ x ∈ t.data, x.isFinite = true → Faithful x) :
    Returns Tensor.ofJson? t.toJson (if ∀ x ∈ t.data, x.isFinite = true then some t else none) := by
  obtain ⟨shape, rereadShape, hshape⟩ := Shape.returns sized
  have values : Returns (list? real?) (arr (t.data.map fun x => num (.real x)))
      (t.data.mapM fun x : Float => if x.isFinite = true then some x else none) :=
    Returns.list fun x mem => returns_real (faithful x mem)
  obtain ⟨data, rereadData, hdata⟩ := values
  refine ⟨obj [("shape", shape), ("data", data)],
    .obj (.cons rereadShape (.cons rereadData .nil)), ?_⟩
  have fields : record? ["shape", "data"] (obj [("shape", shape), ("data", data)]) =
      some [("shape", shape), ("data", data)] := rfl
  have read : ofJson? (obj [("shape", shape), ("data", data)]) =
      (Shape.ofJson? shape).bind fun s => (list? real? data).bind fun xs => Tensor.new? s xs := by
    rw [ofJson?, fields]
    rfl
  rw [read, hshape, hdata, mapM_guard]
  split
  · exact if_pos fills
  · rfl

/-- The values of a constant. -/
def Node.values (node : Node) : List Float :=
  match node.op with
  | .const value => value.data
  | _ => []

/-- An operation unless one of its values is not finite. -/
def Op.finite? (op : Op) : Option Op :=
  match op with
  | .const value => if ∀ x ∈ value.data, x.isFinite = true then some op else none
  | _ => some op

/-- The fields of an operation are read back, and no other field of a node is among them. -/
theorem Op.returns {op : Op}
    (sized : ∀ value, op = .const value → ∀ d ∈ value.shape.dims, d < UInt64.size)
    (fills : ∀ value, op = .const value → value.fills = true)
    (faithful : ∀ value, op = .const value → ∀ x ∈ value.data, x.isFinite = true → Faithful x) :
    ∃ fs, RereadFields op.toFields fs ∧ (fs.all fun f => !Node.fieldNames.contains f.1) = true ∧
      (fs.all fun f => f.2.loadable Node.fieldDepth) = true ∧ Op.ofFields? fs = op.finite? := by
  cases op with
  | placeholder name => exact ⟨_, .cons (.str _) (.cons (.str _) .nil), rfl, rfl, rfl⟩
  | const value =>
    obtain ⟨k, reread, read⟩ :=
      Tensor.returns (sized value rfl) (fills value rfl) (faithful value rfl)
    refine ⟨_, .cons (.str _) (.cons reread .nil), rfl, ?_, ?_⟩
    · show (true && (loadable Node.fieldDepth k && true)) = true
      rw [reread.loadable_eq]
      exact (Bool.and_true _).trans (value.loadable_toJson _)
    · have fields : Op.ofFields? [("op", .str "const"), ("value", k)] =
          (Tensor.ofJson? k).bind fun value => some (const value) := rfl
      show Op.ofFields? [("op", .str "const"), ("value", k)] = _
      rw [fields, read, finite?]
      split <;> rfl
  | binary f => exact ⟨_, .cons (.str _) .nil, rfl, rfl, by cases f <;> rfl⟩
  | unary f => exact ⟨_, .cons (.str _) .nil, rfl, rfl, by cases f <;> rfl⟩
  | sum => exact ⟨_, .cons (.str _) .nil, rfl, rfl, rfl⟩

/-- Reading a node takes the fields of its operation from the others. -/
theorem Node.ofJson?_append {fs more : List (String × Json)}
    (own : (fs.all fun f => !fieldNames.contains f.1) = true)
    (loads : (fs.all fun f => f.2.loadable fieldDepth) = true)
    (others : (more.all fun f => fieldNames.contains f.1) = true)
    (distinct : (more.map (·.1)).Pairwise (· ≠ ·)) :
    Node.ofJson? (obj (fs ++ more)) = (Op.ofFields? fs).bind fun op =>
      (((more.lookup "inputs").getD (.arr [])).list? NodeId.ofJson?).bind fun ids =>
        ((more.lookup "dtype").bind ElemType.ofJson?).bind fun t =>
          (Shape.ofJson? ((more.lookup "shape").getD (.arr []))).bind fun s =>
            some ⟨op, ids, (t, s)⟩ := by
  rw [List.all_eq_true] at own others
  have theirs : (fs ++ more).filter (fun f => fieldNames.contains f.1) = more := by
    rw [List.filter_append, List.filter_eq_self.mpr others, List.filter_eq_nil_iff.mpr]
    · rfl
    · intro f mem
      have out := own f mem
      simpa using out
  have ours : (fs ++ more).filter (fun f => !fieldNames.contains f.1) = fs := by
    rw [List.filter_append, List.filter_eq_self.mpr own, List.filter_eq_nil_iff.mpr, List.append_nil]
    intro f mem
    have among := others f mem
    simpa using among
  have known : record? fieldNames (obj (fs ++ more)) = some more := by
    rw [record?, theirs]
    exact if_pos distinct
  rw [Node.ofJson?, known, ours]
  exact if_pos loads

theorem Json.RereadFields.append {fs gs fs' gs' : List (String × Json)} (h : RereadFields fs gs)
    (h' : RereadFields fs' gs') : RereadFields (fs ++ fs') (gs ++ gs') :=
  match h with
  | .nil => h'
  | .cons first rest => .cons first (rest.append h')

/-- All values of a constant are finite. -/
def Node.Finite (node : Node) : Prop := ∀ x ∈ node.values, x.isFinite = true

instance (node : Node) : Decidable node.Finite :=
  inferInstanceAs (Decidable (∀ x ∈ node.values, x.isFinite = true))

theorem Node.finite?_bind (op : Op) (ids : List NodeId) (type : ValueType) :
    (op.finite?.bind fun op => some (Node.mk op ids type)) =
      if (Node.mk op ids type).Finite then some ⟨op, ids, type⟩ else none := by
  cases op with
  | const value =>
    show ((if ∀ x ∈ value.data, x.isFinite = true then some _ else none).bind _) =
      if ∀ x ∈ value.data, x.isFinite = true then _ else _
    split <;> rfl
  | _ => exact (if_pos (List.forall_mem_nil _)).symm

/-- A node is read back unless it is a constant with a value that is not finite. -/
theorem Node.returns {before : Graph} (right : before.Right node)
    (ids : ∀ id ∈ node.inputs, id.index < UInt32.size) (dims : ∀ d ∈ node.type.2.dims, d < UInt64.size)
    (faithful : ∀ x ∈ node.values, x.isFinite = true → Faithful x) :
    Returns Node.ofJson? node.toJson (if node.Finite then some node else none) := by
  obtain ⟨op, inputs, t, s⟩ := node
  obtain ⟨fs, rereadOp, own, loads, hop⟩ : ∃ fs, RereadFields op.toFields fs ∧ _ := Op.returns
    (fun value eq => (right.of_const eq).2 ▸ dims) (fun value eq => (right.of_const eq).1)
    (fun value eq => by
      subst eq
      exact faithful)
  obtain ⟨shape, rereadShape, hshape⟩ := Shape.returns dims
  have type : RereadFields [("dtype", t.toJson), ("shape", s.toJson)]
      [("dtype", t.toJson), ("shape", shape)] := .cons (.str _) (.cons rereadShape .nil)
  cases inputs with
  | nil =>
    refine ⟨obj (fs ++ [("dtype", t.toJson), ("shape", shape)]), .obj ?_, ?_⟩
    · rw [List.append_nil]
      exact rereadOp.append type
    · rw [ofJson?_append own loads rfl (by simp), hop]
      show (op.finite?.bind fun op => (some []).bind fun ids =>
        ((some t.toJson).bind ElemType.ofJson?).bind fun t => (Shape.ofJson? shape).bind fun s =>
          some (Node.mk op ids (t, s))) = _
      rw [Option.bind_some, ElemType.ofJson?_toJson, hshape]
      exact finite?_bind op [] (t, s)
  | cons id rest =>
    obtain ⟨k, reread, hids⟩ : Returns (list? NodeId.ofJson?) (arr ((id :: rest).map NodeId.toJson))
        ((id :: rest).mapM some) := Returns.list fun id mem => NodeId.returns (ids id mem)
    refine ⟨obj (fs ++ [("inputs", k), ("dtype", t.toJson), ("shape", shape)]), .obj ?_, ?_⟩
    · rw [List.append_assoc]
      exact rereadOp.append (.cons reread type)
    · rw [ofJson?_append own loads rfl (by simp), hop]
      show (op.finite?.bind fun op => (list? NodeId.ofJson? k).bind fun ids =>
        ((some t.toJson).bind ElemType.ofJson?).bind fun t => (Shape.ofJson? shape).bind fun s =>
          some (Node.mk op ids (t, s))) = _
      rw [hids, mapM_some, Option.bind_some, ElemType.ofJson?_toJson, hshape]
      exact finite?_bind op (id :: rest) (t, s)

/-! ## Graphs -/

namespace Graph

/-- The values of all constants. -/
def values (g : Graph) : List Float := g.nodes.flatMap Node.values

/-- Positions have 32 bits and axis sizes 64. -/
structure Sized (g : Graph) : Prop where
  inputs : ∀ node ∈ g.nodes, ∀ id ∈ node.inputs, id.index < UInt32.size
  dims : ∀ node ∈ g.nodes, ∀ d ∈ node.type.2.dims, d < UInt64.size
  outputs : ∀ id ∈ g.outputs, id.index < UInt32.size

theorem finite_iff : (∀ node ∈ g.nodes, node.Finite) ↔ ∀ x ∈ g.values, x.isFinite = true := by
  unfold values Node.Finite
  simp only [List.mem_flatMap, forall_exists_index, and_imp]
  exact ⟨fun h x node mem => h node mem x, fun h node mem x => h x node mem⟩

/-- A checked graph is read back unless a value is not finite. -/
theorem returns (checked : checkNodes [] g.nodes = .ok ()) (sized : g.Sized)
    (faithful : ∀ x ∈ g.values, x.isFinite = true → Faithful x) :
    Returns ofJson? g.toJson (if ∀ x ∈ g.values, x.isFinite = true then some g else none) := by
  obtain ⟨nodes, rereadNodes, hnodes⟩ : Returns (list? Node.ofJson?) (arr (g.nodes.map Node.toJson))
      (g.nodes.mapM fun node => if node.Finite then some node else none) := by
    refine Returns.list fun node mem => ?_
    obtain ⟨i, found⟩ := List.mem_iff_getElem?.mp mem
    refine Node.returns (right_of_checkNodes checked found) (sized.inputs node mem)
      (sized.dims node mem) fun x here => faithful x (List.mem_flatMap.mpr ⟨node, mem, here⟩)
  obtain ⟨outputs, rereadOutputs, houtputs⟩ : Returns (list? NodeId.ofJson?)
      (arr (g.outputs.map NodeId.toJson)) (g.outputs.mapM some) :=
    Returns.list fun id mem => NodeId.returns (sized.outputs id mem)
  refine ⟨obj [("nodes", nodes), ("outputs", outputs)],
    .obj (.cons rereadNodes (.cons rereadOutputs .nil)), ?_⟩
  have fields : record? ["nodes", "outputs"] (obj [("nodes", nodes), ("outputs", outputs)]) =
      some [("nodes", nodes), ("outputs", outputs)] := rfl
  have read : ofJson? (obj [("nodes", nodes), ("outputs", outputs)]) =
      (list? Node.ofJson? nodes).bind fun nodes => (list? NodeId.ofJson? outputs).bind fun outputs =>
        some ⟨nodes, outputs⟩ := by
    rw [ofJson?, fields]
    rfl
  rw [read, hnodes, houtputs, mapM_guard, mapM_some]
  simp only [finite_iff]
  split <;> rfl

/-- A checked graph is read back from its document when all values of its constants are finite, and
    otherwise the document is refused. -/
theorem ofText_toText (valid : g.validate = .ok ()) (sized : g.Sized)
    (faithful : ∀ x ∈ g.values, x.isFinite = true → Faithful x) :
    ofText g.toText = if ∀ x ∈ g.values, x.isFinite = true then .ok g else .error .json := by
  obtain ⟨k, reread, read⟩ := returns (validate_iff.mp valid).1 sized faithful
  rw [ofText, toText, parse_text reread, Option.bind_some, read]
  by_cases finite : ∀ x ∈ g.values, x.isFinite = true
  · rw [if_pos finite, if_pos finite]
    show g.validate.map (fun _ => g) = .ok g
    rw [valid]
    rfl
  · rw [if_neg finite, if_neg finite]

/-- The placeholder `x`, made half as large again. -/
def halfAgain : Graph where
  nodes := [
    ⟨.placeholder "x", [], (.f32, ⟨[3]⟩)⟩,
    ⟨.const (.scalar 1.5), [], (.f32, .scalar)⟩,
    ⟨.binary .mul, [⟨0⟩, ⟨1⟩], (.f32, ⟨[3]⟩)⟩]
  outputs := [⟨2⟩]

theorem faithful_oneAndHalf : Faithful 1.5 := by
  have text : realText 1.5 = "1.5" := by decide +kernel
  have tenth : scaled 15 (-1) = some 1.5 := by
    show some (scaleDown (Float.ofNat 15) 1) = some 1.5
    rw [scaleDown, if_pos (by decide)]
    decide +kernel
  rw [Faithful, text]
  show some ((scaled 15 (-1)).elim unreadable fun x => num (.real x), []) = _
  rw [tenth, Option.elim_some]

theorem ofText_toText_halfAgain :
    halfAgain.validate = .ok () ∧ halfAgain.Sized ∧
      (∀ x ∈ halfAgain.values, x.isFinite = true → Faithful x) ∧
      ofText halfAgain.toText = .ok halfAgain := by
  have valid : halfAgain.validate = .ok () := by decide +kernel
  have sized : halfAgain.Sized := ⟨by decide, by decide, by decide⟩
  have faithful : ∀ x ∈ halfAgain.values, x.isFinite = true → Faithful x := by
    intro x mem _
    obtain rfl : x = 1.5 := List.mem_singleton.mp mem
    exact faithful_oneAndHalf
  exact ⟨valid, sized, faithful,
    (ofText_toText valid sized faithful).trans (if_pos (by decide +kernel))⟩

/-- A graph that returns a constant without a number. -/
def notANumber : Graph where
  nodes := [⟨.const (.scalar (0.0 / 0.0)), [], (.f64, .scalar)⟩]
  outputs := [⟨0⟩]

/-- The value is written as `null`, which is not read as a number. -/
theorem validate_notANumber :
    notANumber.validate = .ok () ∧ notANumber.Sized ∧
      ¬ ∃ g, ofText notANumber.toText = .ok g := by
  have refused : ofText notANumber.toText = .error .json := by decide +kernel
  refine ⟨by decide +kernel, ⟨by decide, by decide, by decide⟩, ?_⟩
  rintro ⟨g, read⟩
  rw [refused] at read
  cases read

end Graph

end Regraft
