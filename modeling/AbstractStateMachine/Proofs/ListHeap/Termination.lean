import AbstractStateMachine.Proofs.ListHeap.Persistence
import AbstractStateMachine.Proofs.Location.Stability
import AbstractStateMachine.Value.Printer

/-!
# Lists nest finitely

The observers of lists have a bound on how far they look. Here they are stated once more without
one: a cursor that moves through the nodes of a list, and the loops and recursions over it, which
need not end and which stop with a misstep at a freed list, a slice of something else than a buffer,
or a view that is not inside of its buffer. In a heap that operations on allocated lists lead to,
none of that happens. No list is nested in itself, although its buffer may hold it, so they all end,
and with what the bounded observers give.
-/

namespace AbstractStateMachine.ListHeap

/-- The heaps that operations lead to, each applied to allocated lists. -/
inductive Attainable : ListHeap → Prop where
  | start : Attainable {}
  | step {heap : ListHeap} (hheap : Attainable heap) (op : Op)
      (hop : ∀ list ∈ op.operands, heap.Live list) : Attainable (op.perform heap).2

theorem Attainable.wellFormed {heap : ListHeap} (h : heap.Attainable) : heap.WellFormed := by
  induction h with
  | start => exact wellFormed_default
  | @step heap _ op hop ih =>
    -- All allocated lists are taken to be on record, with what they denote.
    have hvalid : (Session.mk heap { entry | heap.Denotes entry.1 entry.2 }).Valid :=
      ⟨ih, fun _ _ hmem => hmem⟩
    exact (hvalid.step fun list hlist => ih.denotes list (hop list hlist)).wellFormed

/-! ### Chains -/

/-- The elements within the view of a list. -/
inductive Displays (heap : ListHeap) : Handle → Value → Prop where
  | base {list : Handle} {buffer : Array Value} {length : Nat} {value : Value}
      (hnode : heap.node? list = some (.base buffer length))
      (hvalue : value ∈ window buffer 0 length) : Displays heap list value
  | slice {list parent : Handle} {buffer : Array Value} {start stop length : Nat} {value : Value}
      (hnode : heap.node? list = some (.slice parent start stop))
      (hparent : heap.node? parent = some (.base buffer length))
      (hvalue : value ∈ window buffer start stop) : Displays heap list value
  | head {list rest : Handle} {value : Value} (hnode : heap.node? list = some (.head value rest)) :
      Displays heap list value
  | rest {list rest : Handle} {first value : Value}
      (hnode : heap.node? list = some (.head first rest)) (hrest : Displays heap rest value) :
      Displays heap list value

section Chains

variable {heap : ListHeap}

theorem Node.Reads.mem_of_displays {list : Handle} {value : Value} (h : heap.Displays list value)
    {node : Node} (hnode : heap.node? list = some node) {elements : List Value}
    (hreads : node.Reads heap elements) : value ∈ elements := by
  induction h generalizing node elements with
  | base hbase hvalue =>
    cases hnode.symm.trans hbase
    cases hreads
    exact hvalue
  | slice hslice hparent hvalue =>
    cases hnode.symm.trans hslice
    cases hreads with
    | slice hparent' =>
      cases hparent.symm.trans hparent'
      exact hvalue
  | head hhead =>
    cases hnode.symm.trans hhead
    cases hreads
    exact List.mem_cons_self
  | rest hhead _ ih =>
    cases hnode.symm.trans hhead
    cases hreads with
    | head hrest hreads => exact List.mem_cons_of_mem _ (ih hrest hreads)

theorem Displays.live {list : Handle} {value : Value} (h : heap.Displays list value) :
    heap.Live list := by
  cases h with
  | base hnode | slice hnode | head hnode | rest hnode => exact live_of_node? hnode

theorem not_exists_displays_chain (hheap : heap.WellFormed) :
    ¬ ∃ chain : Nat → Handle, ∀ n, heap.Displays (chain n) (.list (chain (n + 1))) := by
  rintro ⟨chain, hchain⟩
  obtain ⟨rank, hrank⟩ := hheap.nested
  have hdescends (n : Nat) : rank (chain (n + 1)) < rank (chain n) := by
    obtain ⟨elements, node, hnode, hreads⟩ := hheap.denotes (chain n) (hchain n).live
    exact hrank (chain n) elements ⟨node, hnode, hreads⟩ _ (hreads.mem_of_displays (hchain n) hnode)
  have hbound (n : Nat) : rank (chain n) + n ≤ rank (chain 0) := by
    induction n with
    | zero => exact Nat.le_refl _
    | succ n ih =>
      have := hdescends n
      omega
  have := hbound (rank (chain 0) + 1)
  omega

theorem Node.Reads.not_head_chain {node : Node} {elements : List Value}
    (hreads : node.Reads heap elements) {chain : Nat → Handle}
    (hnode : heap.node? (chain 0) = some node)
    (hchain : ∀ n, ∃ value, heap.node? (chain n) = some (.head value (chain (n + 1)))) : False := by
  induction hreads generalizing chain with
  | base | slice =>
    obtain ⟨value, hhead⟩ := hchain 0
    cases hnode.symm.trans hhead
  | head hrest _ ih =>
    obtain ⟨value, hhead⟩ := hchain 0
    cases hnode.symm.trans hhead
    exact @ih (fun n => chain (n + 1)) hrest fun n => hchain (n + 1)

theorem not_exists_head_chain (hheap : heap.WellFormed) :
    ¬ ∃ chain : Nat → Handle, ∀ n, ∃ value,
      heap.node? (chain n) = some (.head value (chain (n + 1))) := by
  rintro ⟨chain, hchain⟩
  obtain ⟨value, hnode⟩ := hchain 0
  obtain ⟨elements, node, hnode, hreads⟩ := hheap.denotes (chain 0) (live_of_node? hnode)
  exact hreads.not_head_chain hnode hchain

end Chains

/-! ### Observers without a bound -/

inductive Misstep where
  | freed | noBase | outside
  deriving DecidableEq, Repr

/-- There is no outcome of what does not end. -/
abbrev Walk := ExceptT Misstep Option

def visit (heap : ListHeap) (list : Handle) : Walk Node :=
  match heap.node? list with
  | some node => pure node
  | none => throw .freed

def visitBuffer (heap : ListHeap) (base : Handle) : Walk (Array Value) := do
  match ← heap.visit base with
  | .base buffer _ => pure buffer
  | _ => throw .noBase

def cut (buffer : Array Value) (start stop : Nat) : Walk (List Value) :=
  if start ≤ stop ∧ stop ≤ buffer.size then pure (window buffer start stop) else throw .outside

/-- A position in a list: before a node, or among the values of a view. -/
inductive Cursor where
  | node (list : Handle)
  | values (rest : List Value)

def Cursor.ofValues? : List Value → Option (Value × Cursor)
  | [] => none
  | value :: rest => some (value, .values rest)

/-- The value behind a cursor and the cursor behind the value; `none` at the end of the list. -/
def next (heap : ListHeap) : Cursor → Walk (Option (Value × Cursor))
  | .values values => pure (Cursor.ofValues? values)
  | .node list => do
    match ← heap.visit list with
    | .head value rest => pure (some (value, .node rest))
    | .base buffer length => Cursor.ofValues? <$> cut buffer 0 length
    | .slice base start stop => Cursor.ofValues? <$> cut (← heap.visitBuffer base) start stop

def iterate (heap : ListHeap) (cursor : Cursor) : Walk (List Value) := do
  match ← heap.next cursor with
  | none => pure []
  | some (value, rest) =>
    let values ← heap |>.iterate rest
    pure (value :: values)
partial_fixpoint

/-- Adds the length of a list to the number of heads that were passed on the way to it. -/
def count (heap : ListHeap) (list : Handle) (passed : Nat) : Walk Nat := do
  match ← heap.visit list with
  | .head _ rest => heap |>.count rest (passed + 1)
  | .base _ length => pure (passed + length)
  | .slice _ start stop => if start ≤ stop then pure (passed + (stop - start)) else throw .outside
partial_fixpoint

mutual

def compare (heap : ListHeap) (x y : Value) : Walk Bool :=
  match x, y with
  | .list x, .list y => if x = y then pure true else heap |>.compareFrom (.node x) (.node y)
  | x, y => pure (heap.equalWithin 0 x y)
partial_fixpoint

/-- Two lists are gone through together, up to the first difference. -/
def compareFrom (heap : ListHeap) (x y : Cursor) : Walk Bool := do
  match ← heap.next x, ← heap.next y with
  | none, none => pure true
  | some (a, x), some (b, y) =>
    let same ← heap |>.compare a b
    if same then heap |>.compareFrom x y else pure false
  | _, _ => pure false
partial_fixpoint

end

/-- What becomes of a value that is no list, and of the results for the elements of one that is. -/
structure Reading (β : Type) where
  scalar : Value → β
  list : List β → β

mutual

def read {β : Type} (heap : ListHeap) (reading : Reading β) (value : Value) : Walk β :=
  match value with
  | .list list => do
    let parts ← heap |>.readFrom reading (.node list)
    pure (reading.list parts)
  | value => pure (reading.scalar value)
partial_fixpoint

def readFrom {β : Type} (heap : ListHeap) (reading : Reading β) (cursor : Cursor) :
    Walk (List β) := do
  match ← heap.next cursor with
  | none => pure []
  | some (element, rest) =>
    let part ← heap |>.read reading element
    let parts ← heap |>.readFrom reading rest
    pure (part :: parts)
partial_fixpoint

end

def tokenReading (heap : ListHeap) : Reading (List Token) :=
  ⟨heap.tokensWithin 0, fun parts => .list :: parts.flatten⟩

def readKey (heap : ListHeap) (digest : Digest) : Value → Walk KeyPart
  | .int value => pure (.word value.toUInt64)
  | .undefined => pure (.word undefWord)
  | other => digest <$> heap.read heap.tokenReading other

def textReading (heap : ListHeap) (spec : Specification) : Reading String :=
  ⟨heap.textWithin spec 0, fun parts => "[" ++ ", ".intercalate parts ++ "]"⟩

/-! ### Their outcomes -/

section Outcomes

variable {heap : ListHeap} {cursor : Cursor} {elements : List Value}

theorem visit_of_node? {list : Handle} {node : Node} (hnode : heap.node? list = some node) :
    heap.visit list = pure node := by
  rw [visit, hnode]

theorem visitBuffer_of_node? {base : Handle} {buffer : Array Value} {length : Nat}
    (hnode : heap.node? base = some (.base buffer length)) :
    heap.visitBuffer base = pure buffer := by
  rw [visitBuffer, visit_of_node? hnode, pure_bind]

theorem cut_eq {buffer : Array Value} {start stop : Nat} (hstart : start ≤ stop)
    (hstop : stop ≤ buffer.size) : cut buffer start stop = pure (window buffer start stop) :=
  if_pos ⟨hstart, hstop⟩

inductive Cursor.Precedes (heap : ListHeap) : Cursor → List Value → Prop where
  | node {list : Handle} {elements : List Value} (hlist : heap.Denotes list elements) :
      Precedes heap (.node list) elements
  | values (elements : List Value) : Precedes heap (.values elements) elements

open Cursor (Precedes)

/-- A cursor passes the values that are behind it one by one. -/
inductive Passes (heap : ListHeap) : Option (Value × Cursor) → List Value → Prop where
  | done : Passes heap none []
  | one {value : Value} {cursor : Cursor} {rest : List Value}
      (hrest : cursor.Precedes heap rest) : Passes heap (some (value, cursor)) (value :: rest)

theorem passes_ofValues? (values : List Value) : heap.Passes (Cursor.ofValues? values) values := by
  cases values with
  | nil => exact .done
  | cons value rest => exact .one (.values rest)

theorem Cursor.Precedes.next (h : cursor.Precedes heap elements) :
    ∃ passed, heap.next cursor = pure passed ∧ heap.Passes passed elements := by
  cases h with
  | values => exact ⟨_, rfl, passes_ofValues? elements⟩
  | node hlist =>
    obtain ⟨node, hnode, hreads⟩ := hlist
    rw [ListHeap.next, visit_of_node? hnode, pure_bind]
    cases hreads with
    | base hlength =>
      refine ⟨_, ?_, passes_ofValues? _⟩
      simp only [cut_eq (Nat.zero_le _) hlength, map_pure]
    | slice hparent hstart hstop =>
      refine ⟨_, ?_, passes_ofValues? _⟩
      simp only [visitBuffer_of_node? hparent, pure_bind, cut_eq hstart hstop, map_pure]
    | head hrest hreads => exact ⟨_, rfl, .one (.node ⟨_, hrest, hreads⟩)⟩

theorem iterate_eq (h : cursor.Precedes heap elements) : heap.iterate cursor = pure elements := by
  induction elements generalizing cursor with
  | nil =>
    obtain ⟨passed, hnext, hpassed⟩ := h.next
    cases hpassed
    rw [iterate, hnext, pure_bind]
  | cons value rest ih =>
    obtain ⟨passed, hnext, hpassed⟩ := h.next
    cases hpassed with
    | one hrest =>
      rw [iterate, hnext, pure_bind]
      simp only [ih hrest, pure_bind]

theorem Node.Reads.count_eq {node : Node} (hreads : node.Reads heap elements) {list : Handle}
    (hnode : heap.node? list = some node) (passed : Nat) :
    heap.count list passed = pure (passed + elements.length) := by
  induction hreads generalizing list passed with
  | base hlength =>
    rw [count, visit_of_node? hnode, pure_bind, length_window 0 hlength, Nat.sub_zero]
  | slice _ hstart hstop =>
    rw [count, visit_of_node? hnode, pure_bind, length_window _ hstop]
    exact if_pos hstart
  | head hrest _ ih =>
    rw [count, visit_of_node? hnode, pure_bind, List.length_cons, ← Nat.add_assoc,
      Nat.add_right_comm]
    exact ih hrest (passed + 1)

theorem compareFrom_eq {x y : Cursor} {xs ys : List Value} (hx : x.Precedes heap xs)
    (hy : y.Precedes heap ys) {related : Value → Value → Bool}
    (hrelated : ∀ a ∈ xs, ∀ b ∈ ys, heap.compare a b = pure (related a b)) :
    heap.compareFrom x y = pure (allPairs related xs ys) := by
  induction xs generalizing x y ys with
  | nil =>
    obtain ⟨passed, hnext, hpassed⟩ := hx.next
    obtain ⟨passed', hnext', hpassed'⟩ := hy.next
    cases hpassed
    cases hpassed' <;> rw [compareFrom, hnext, pure_bind, hnext', pure_bind] <;> rfl
  | cons a xs ih =>
    obtain ⟨passed, hnext, hpassed⟩ := hx.next
    obtain ⟨passed', hnext', hpassed'⟩ := hy.next
    cases hpassed with
    | one hrest =>
      cases hpassed' with
      | done =>
        rw [compareFrom, hnext, pure_bind, hnext', pure_bind]
        rfl
      | @one b _ ys hrest' =>
        have hfirst := hrelated a List.mem_cons_self b List.mem_cons_self
        have hothers := ih hrest hrest' fun a ha b hb =>
          hrelated a (List.mem_cons_of_mem _ ha) b (List.mem_cons_of_mem _ hb)
        rw [compareFrom, hnext, pure_bind, hnext', pure_bind]
        simp only [hfirst, pure_bind, allPairs, hothers]
        cases related a b <;> rfl

theorem readFrom_eq {β : Type} {reading : Reading β} (h : cursor.Precedes heap elements)
    {result : Value → β}
    (hresult : ∀ element ∈ elements, heap.read reading element = pure (result element)) :
    heap.readFrom reading cursor = pure (elements.map result) := by
  induction elements generalizing cursor with
  | nil =>
    obtain ⟨passed, hnext, hpassed⟩ := h.next
    cases hpassed
    rw [readFrom, hnext, pure_bind]
    rfl
  | cons element rest ih =>
    obtain ⟨passed, hnext, hpassed⟩ := h.next
    cases hpassed with
    | one hrest =>
      have hfirst := hresult element List.mem_cons_self
      have hothers := ih hrest fun other hother => hresult other (List.mem_cons_of_mem _ hother)
      rw [readFrom, hnext, pure_bind]
      simp only [hfirst, hothers, pure_bind, List.map_cons]

end Outcomes

/-! ### Values of the heap -/

theorem compare_of_not_lists {heap : ListHeap} {x y : Value}
    (hlists : ∀ a b, x = .list a → y = .list b → False) (bound : Nat) :
    heap.compare x y = pure (heap.equalWithin bound x y) := by
  have hbound : heap.equalWithin 0 x y = heap.equalWithin bound x y := by
    cases x with
    | list a =>
      rw [Bool.eq_iff_iff, equalWithin_list_iff, equalWithin_list_iff]
      refine exists_congr fun b => and_congr_right ?_
      intro hb
      exact (hlists a b rfl hb.symm).elim
    | _ => exact equalWithin_eq_of_not_list (by rintro _ ⟨⟩)
  rw [compare, hbound]
  exact hlists

section Values

variable {heap : ListHeap} (hheap : heap.WellFormed) {value : Value}
include hheap

theorem precedes_toList {list : Handle} (hlive : heap.Live list) :
    Cursor.Precedes heap (.node list) (heap.toList list) :=
  .node (hheap.denotes_toList hlive)

theorem count_eq_length {list : Handle} (hlive : heap.Live list) :
    heap.count list 0 = pure (heap.length list) := by
  obtain ⟨elements, node, hnode, hreads⟩ := hheap.denotes list hlive
  have hlength : heap.length list = elements.length := Denotes.length_eq ⟨node, hnode, hreads⟩
  rw [hreads.count_eq hnode, hlength, Nat.zero_add]

section Depth

variable {depth : Handle → Nat} (hmatch : heap.Matches heap heap.Live depth)
include hmatch

theorem compare_eq_equalWithin {bound : Nat} {x y : Value}
    (hx : KeptWithin heap.Live depth bound x) (hy : KeptWithin heap.Live depth bound y) :
    heap.compare x y = pure (heap.equalWithin bound x y) := by
  induction bound generalizing x y with
  | zero =>
    refine compare_of_not_lists ?_ 0
    rintro list _ rfl -
    exact absurd (hx list rfl).2 (Nat.not_lt_zero _)
  | succ bound ih =>
    by_cases hlists : ∃ a b, x = .list a ∧ y = .list b
    · obtain ⟨a, b, rfl, rfl⟩ := hlists
      have hpairs := compareFrom_eq (precedes_toList hheap (hx a rfl).1)
        (precedes_toList hheap (hy b rfl).1) fun x hx' y hy' =>
          ih (hmatch.keptWithin_of_mem hx hx') (hmatch.keptWithin_of_mem hy hy')
      have hequal : heap.equalWithin (bound + 1) (.list a) (.list b) =
          (a == b || allPairs (heap.equalWithin bound) (heap.toList a) (heap.toList b)) := rfl
      rw [compare, hpairs, hequal]
      by_cases hsame : a = b
      · rw [if_pos hsame, beq_iff_eq.mpr hsame, Bool.true_or]
      · rw [if_neg hsame, beq_eq_false_iff_ne.mpr hsame, Bool.false_or]
    · exact compare_of_not_lists (fun a b ha hb => hlists ⟨a, b, ha, hb⟩) _

theorem read_eq_within {β : Type} {reading : Reading β} {within : Nat → Value → β}
    (hscalar : ∀ bound value, (∀ list, value ≠ .list list) →
      reading.scalar value = within bound value)
    (hlist : ∀ bound list, within (bound + 1) (.list list) =
      reading.list ((heap.toList list).map (within bound)))
    {bound : Nat} {value : Value} (hvalue : KeptWithin heap.Live depth bound value) :
    heap.read reading value = pure (within bound value) := by
  induction bound generalizing value with
  | zero =>
    have hother : ∀ list, value ≠ .list list := by
      rintro list rfl
      exact absurd (hvalue list rfl).2 (Nat.not_lt_zero _)
    rw [read, hscalar 0 value hother]
    exact hother
  | succ bound ih =>
    by_cases hother : ∃ list, value = .list list
    · obtain ⟨list, rfl⟩ := hother
      have hparts := readFrom_eq (precedes_toList hheap (hvalue list rfl).1)
        fun element helement => ih (hmatch.keptWithin_of_mem hvalue helement)
      rw [read, hparts, pure_bind, hlist]
    · rw [read, hscalar (bound + 1) value (not_exists.mp hother)]
      exact not_exists.mp hother

end Depth

theorem compare_eq_equal {x y : Value} (hx : heap.Supports [x]) (hy : heap.Supports [y]) :
    heap.compare x y = pure (heap.equal x y) := by
  obtain ⟨depth, hmatch, hkept⟩ := exists_keptWithin_self hheap
  exact compare_eq_equalWithin hheap hmatch (hkept x hx) (hkept y hy)

theorem read_textReading (spec : Specification) (hvalue : heap.Supports [value]) :
    heap.read (heap.textReading spec) value = pure (heap.text spec value) := by
  obtain ⟨depth, hmatch, hkept⟩ := exists_keptWithin_self hheap
  refine read_eq_within hheap hmatch ?_ (fun _ _ => rfl) (hkept value hvalue)
  intro bound value hother
  cases value with
  | list list => exact absurd rfl (hother list)
  | bool value => cases value <;> cases bound <;> rfl
  | _ => cases bound <;> rfl

theorem read_tokenReading (hvalue : heap.Supports [value]) :
    heap.read heap.tokenReading value = pure (heap.tokens value) := by
  obtain ⟨depth, hmatch, hkept⟩ := exists_keptWithin_self hheap
  refine read_eq_within hheap hmatch ?_ (fun bound list => ?_) (hkept value hvalue)
  · intro bound value hother
    cases value with
    | list list => exact absurd rfl (hother list)
    | _ => cases bound <;> rfl
  · rw [tokensWithin, List.flatMap_def, tokenReading]

theorem readKey_eq_keyPart (digest : Digest) (hvalue : heap.Supports [value]) :
    heap.readKey digest value = pure (heap.keyPart digest value) := by
  have htokens := read_tokenReading hheap hvalue
  cases value with
  | int | undefined => rfl
  | _ =>
    show digest <$> heap.read heap.tokenReading _ = _
    rw [htokens, map_pure]
    rfl

end Values

/-- The buffer of the list `⟨0⟩` holds this list itself, behind what it shows; `⟨1⟩` shows both. -/
def selfHolding : ListHeap :=
  let made := (Op.perform (Op.perform {} .beginEpoch).2 (.ofList [.int 1])).2
  (Op.perform made (.append ⟨1⟩ ⟨0⟩ (.list ⟨0⟩))).2

theorem attainable_selfHolding : selfHolding.Attainable := by
  refine .step (.step (.step .start .beginEpoch ?_) (.ofList [.int 1]) ?_) _ ?_
  · exact fun _ hlist => nomatch hlist
  · exact fun _ hlist => nomatch hlist
  · intro list hlist
    obtain rfl : list = ⟨0⟩ := (List.mem_pair.mp hlist).elim id id
    rfl

/-- **Lists nest finitely.** The nodes of a heap may refer to each other in cycles. But whatever
operations on allocated lists have led to it, there is no infinite chain of lists each of which is
an element within the view of the one before, and no infinite chain of heads. To go through a list,
to measure it, to compare, file and print values comes to an end without a misstep. -/
theorem observers_terminate :
    (∃ (heap : ListHeap) (list : Handle), heap.Attainable ∧ list ∈ heap.successors list) ∧
    ∀ heap : ListHeap, heap.Attainable →
      (¬ ∃ chain : Nat → Handle, ∀ n, heap.Displays (chain n) (.list (chain (n + 1)))) ∧
      (¬ ∃ chain : Nat → Handle, ∀ n, ∃ value,
        heap.node? (chain n) = some (.head value (chain (n + 1)))) ∧
      (∀ list, heap.Live list → heap.iterate (.node list) = pure (heap.toList list) ∧
        heap.count list 0 = pure (heap.length list)) ∧
      (∀ x y, heap.Supports [x] → heap.Supports [y] →
        heap.compare x y = pure (heap.equal x y)) ∧
      ∀ value, heap.Supports [value] →
        (∀ digest, heap.readKey digest value = pure (heap.keyPart digest value)) ∧
        ∀ spec, heap.read (heap.textReading spec) value = pure (heap.text spec value) := by
  refine ⟨?_, fun heap hattainable => ?_⟩
  · exact ⟨selfHolding, ⟨0⟩, attainable_selfHolding, by decide⟩
  · have hheap := hattainable.wellFormed
    exact ⟨not_exists_displays_chain hheap, not_exists_head_chain hheap,
      fun list hlive => ⟨iterate_eq (precedes_toList hheap hlive), count_eq_length hheap hlive⟩,
      fun x y hx hy => compare_eq_equal hheap hx hy,
      fun value hvalue => ⟨fun digest => readKey_eq_keyPart hheap digest hvalue,
        fun spec => read_textReading hheap spec hvalue⟩⟩

theorem observers_terminate_selfHolding :
    selfHolding.Attainable ∧ selfHolding.successors ⟨0⟩ = [⟨0⟩] ∧
      selfHolding.iterate (.node ⟨1⟩) = pure [.int 1, .list ⟨0⟩] ∧
      selfHolding.compare (.list ⟨1⟩) (.list ⟨0⟩) = pure false ∧
      ∀ spec, selfHolding.read (selfHolding.textReading spec) (.list ⟨1⟩) = pure "[1, [1]]" := by
  obtain ⟨-, -, hlists, hcompare, hvalues⟩ := observers_terminate.2 _ attainable_selfHolding
  have hsupports (list : Handle) (hlive : selfHolding.Live list) :
      selfHolding.Supports [.list list] := by
    intro other hother
    cases List.mem_singleton.mp hother
    exact hlive
  refine ⟨attainable_selfHolding, by decide, ?_, ?_, fun spec => ?_⟩
  · exact (hlists ⟨1⟩ rfl).1.trans (congrArg pure (by decide))
  · exact (hcompare _ _ (hsupports ⟨1⟩ rfl) (hsupports ⟨0⟩ rfl)).trans (congrArg pure (by decide))
  · exact (hvalues _ (hsupports ⟨1⟩ rfl)).2 spec

end AbstractStateMachine.ListHeap
