import PersistentCollections.Session.Sharing

/-!
# Running a session

Each kind of contents of a register has its verbs. Collections and cursors stay as they are, and
what a verb makes of them goes to the register of the step, `here`. Transients change in their own
register, `of`.
-/

namespace PersistentCollections.Session

/-! ## Vectors -/

section

variable (here of : Nat)

def actVector (number : Nat) (v : TrieVector Value) : Verb → Act Answer
  | .push x => do storeVector here (← logged (v.push (← kept x)))
  | .putAt index x => do storeVector here (← logged (v.put index (← kept x)))
  | .pop => do storeVector here (← result v.pop)
  | .pops 0 => store here (.vector number v)
  | .pops count => do
    storeVector here (← repeatedly (fun v => result (TrieVector.pop v)) count v)
  | .addRange range => do
    if range.count = 0 then store here (.vector number v)
    else storeVector here (← logged (v.extend range.keys))
  | .getAt index => return .optional ((← result (v.get? index)).map .value)
  | .nth index => return .item (.value (← result (v.get index)))
  | .nthOr index fallback => do
    return .item (.value (← result (v.getD index (← operand fallback))))
  | .subscript index => return .item (.value (← result (v.subscript index)))
  | .first => return .optional ((← result v.first?).map .value)
  | .last => return .optional (v.last?.map .value)
  | .window start stop => do store here (.window (← result (v.window start stop)))
  | .cursor => do storeOption here ((← result v.cursor).map .vectorCursor)
  | .backCursor => do storeOption here ((← result v.backCursor).map .backCursor)
  | .walk skip most =>
    walkWith (fun it => (it.remaining, some it.remaining))
      (fun n it => do
        let (xs, it) ← result (TrieVector.Iter.take n it)
        return (xs.map .value, it))
      skip most v.iter
  | .fold f =>
    return .fold (← result (Id.run (v.reduceM (fun p x => p.step f (.value x)) .start).run))
  | .text => return .text (← result (v.text Value.text))
  | .wordHash => do
    let v ← result v.hashed
    write of (.vector number v)
    return .code (hashCode (FxHashed.mk (← result v.hash)))
  | .transient => store here (.transientVector number v.transient)
  | .thaw => do
    write of .empty
    store here (.transientVector number v.transient)
  | .equals other => do
    match ← read other with
    | .vector n w => if number = n then return .flag true else return .flag (← result (v.equals w))
    | .window w => return .flag (← result (w.equalsVector v))
    | _ => throw .unsupported
  | _ => throw .unsupported

def actTransientVector (number : Nat) (t : TrieVector.Transient Value) (verb : Verb) :
    Act Answer := do
  let keep (t : TrieVector.Transient Value) : Act Answer := do
    store of (.transientVector (← making newNumber) t)
  match verb with
  | .push x => keep (← logged (t.push (← kept x)))
  | .putAt index x => keep (← logged (t.put index (← kept x)))
  | .pop => keep (← result t.pop)
  | .pops 0 => store of (.transientVector number t)
  | .pops count =>
    let popOne (t : TrieVector.Transient Value) : Act (TrieVector.Transient Value) := do
      let t ← result t.pop
      write of (.transientVector (← making newNumber) t)
      return t
    keep (← repeatedly popOne count t)
  | .extend items => do
    if items.isEmpty then store of (.transientVector number t)
    else keep (← logged (t.extend (← keptAll items)))
  | .addRange range =>
    if range.count = 0 then store of (.transientVector number t)
    else keep (← logged (t.extend range.keys))
  | .getAt index => return .optional ((← result (t.get? index)).map .value)
  | .nth index => return .item (.value (← result (t.get index)))
  | .text => return .text (← result (t.text Value.text))
  | .freeze =>
    let v ← logged t.freeze
    write of .empty
    store here (.vector number v)
  | _ => throw .unsupported

def actWindow (w : TrieVector.Window Value) : Verb → Act Answer
  | .push x => do store here (.window (← logged (w.push (← kept x))))
  | .putAt index x => do store here (.window (← logged (w.put index (← kept x))))
  | .pop => do store here (.window (← result w.pop))
  | .addRange range => do
    store here (.window (← logged (range.keys.foldlM TrieVector.Window.push w)))
  | .getAt index => return .optional ((← result (w.get? index)).map .value)
  | .nth index => return .item (.value (← result (w.get index)))
  | .nthOr index fallback => do
    return .item (.value (← result (w.getD index (← operand fallback))))
  | .subscript index => return .item (.value (← result (w.subscript index)))
  | .first => return .optional ((← result w.first?).map .value)
  | .last => return .optional ((← result w.last?).map .value)
  | .window start stop => do store here (.window (← result (w.window start stop)))
  | .toVector => do storeVector here (← logged w.toVector)
  | .cursor => do storeOption here ((← result w.cursor).map .vectorCursor)
  | .backCursor => do storeOption here ((← result w.backCursor).map .backCursor)
  | .walk skip most =>
    walkWith (fun it => (it.remaining, some it.remaining))
      (fun n it => do
        let (xs, it) ← result (TrieVector.Iter.take n it)
        return (xs.map .value, it))
      skip most w.iter
  | .fold f =>
    return .fold (← result (Id.run (w.reduceM (fun p x => p.step f (.value x)) .start).run))
  | .text => return .text (← result (w.text Value.text))
  | .wordHash => do
    let w ← result w.hashed
    write of (.window w)
    return .code (hashCode (FxHashed.mk (← result w.hash)))
  | .equals other => do
    match ← read other with
    | .vector _ v => return .flag (← result (w.equalsVector v))
    | .window u => return .flag (← result (w.equals u))
    | _ => throw .unsupported
  | _ => throw .unsupported

def actVectorCursor (c : TrieVector.Cursor Value) : Verb → Act Answer
  | .first => return .item (.value (← result c.first))
  | .next => do storeOption here ((← result c.next).map .vectorCursor)
  | .nexts count => do
    let next (c : TrieVector.Cursor Value) := result c.next
    storeOption here ((← repeated next count c).map .vectorCursor)
  | .count => return .number c.count
  | .chunkFirst => return .items ((← result c.chunkFirst).map .value)
  | .chunkNext => do storeOption here ((← result c.chunkNext).map .vectorCursor)
  | .chunks => return .numbers (← result c.chunkLengths)
  | .walk skip most =>
    walkFrom (fun n c => do
      let (xs, c) ← result (TrieVector.Cursor.take n c)
      return (xs.map .value, c)) skip most c
  | .fold f =>
    return .fold (← result (Id.run (c.reduceM (fun p x => p.step f (.value x)) .start).run))
  | .text => return .text (← result (c.text Value.text))
  | _ => throw .unsupported

def actBackCursor (c : TrieVector.BackCursor Value) : Verb → Act Answer
  | .first => return .item (.value (← result c.first))
  | .next => do storeOption here ((← result c.next).map .backCursor)
  | .nexts count => do
    let next (c : TrieVector.BackCursor Value) := result c.next
    storeOption here ((← repeated next count c).map .backCursor)
  | .count => return .number c.count
  | .walk skip most =>
    walkFrom (fun n c => do
      let (xs, c) ← result (TrieVector.BackCursor.take n c)
      return (xs.map .value, c)) skip most c
  | .text => return .text (← result (c.text Value.text))
  | _ => throw .unsupported

/-! ## Hash maps -/

def actMap (m : HashTrieMap Value Value) : Verb → Act Answer
  | .put key value => do
    store here (.map (← making (Value.insert m (← operand key) (← kept value))))
  | .drop key => do store here (.map (← making (Value.erase m (← operand key))))
  | .addRange range => do
    let add (m : HashTrieMap Value Value) (e : Value × Value) := Value.insert m e.1 e.2
    store here (.map (← making (range.entries.foldlM add m)))
  | .dropRange range => do store here (.map (← making (range.keys.foldlM Value.erase m)))
  | .get key => do
    return .optional ((← making (Value.get? m (← operand key))).map .value)
  | .getOr key fallback => do
    let key ← operand key
    let fallback ← operand fallback
    return .item (.value ((← making (Value.get? m key)).getD fallback))
  | .contains key => return .flag (← making (Value.contains m (← operand key)))
  | .entryAt key => do
    return .optional ((← making (Value.entryAt? m (← operand key))).map .ofEntry)
  | .keys => return .items (m.keys.map .value)
  | .values => return .items (m.values.map .value)
  | .merge other => do
    match ← read other with
    | .map n => store here (.map (← logged (m.merge n)))
    | _ => throw .unsupported
  | .update key f => do
    let key ← operand key
    let number ← making newNumber
    store here (.map (← making (Value.update m key (f.apply number))))
  | .selectKeys keys => do
    let keys ← making (Literal.buildList keys)
    let entries ← making (Value.entriesAt m keys)
    let t := (HashTrieMap.empty.stamped m.stamp).thaw
    store here (.map (← logged (do (← t.extend entries).freeze)))
  | .transient => store here (.transientMap m.transient)
  | .thaw => do
    write of .empty
    store here (.transientMap m.thaw)
  | .cursor => storeOption here (m.cursor.map (.mapCursor m))
  | .walk skip most =>
    walkWith (fun it => (it.remaining, some it.remaining))
      (fun n it =>
        let (es, it) := HashTrieMap.Iter.take n it
        return (es.map .ofEntry, it))
      skip most m.iter
  | .fold f =>
    return .fold (Id.run (m.reduceM (fun p e => p.step f (.ofEntry e)) .start))
  | .foldEntries f =>
    return .fold (Id.run (m.reduceEntriesM (fun p k v => p.step f (.entry k v)) .start))
  | .text => return .text (m.text Value.text Value.text)
  | .wordHash => do
    let m := m.hashed
    write of (.map m)
    return .code (hashCode (FxHashed.mk m.hash))
  | .equals other => do
    match ← read other with
    | .map n => return .flag (← result (m.equals n))
    | _ => throw .unsupported
  | _ => throw .unsupported

def actTransientMap (t : HashTrieMap.Transient Value Value) (verb : Verb) : Act Answer := do
  let machine ← get
  let elsewhere := Thunk.mk fun _ => machine.heldElsewhere of
  let owned := Owned.ofMap machine t.map
  let keep (m : HashTrieMap Value Value) : Act Answer := store of (.transientMap ⟨m⟩)
  let exchange (m : HashTrieMap Value Value) (e : Value × Value) := Value.exchange m e.1 e.2
  let insertAll (es : List (Value × Value)) : Making (HashTrieMap Value Value) :=
    es.foldlM (fun m e => return (← exchange m e).2) t.map
  match verb with
  | .put key value => keep (← making (exchange t.map (← operand key, ← kept value))).2
  | .drop key => keep (← making (owned.take machine elsewhere (← operand key))).2.map
  | .exchange key value =>
    let (old, m) ← making (exchange t.map (← operand key, ← kept value))
    write of (.transientMap ⟨m⟩)
    return .optional (old.map .value)
  | .take key =>
    let (old, rest) ← making (owned.take machine elsewhere (← operand key))
    write of (.transientMap ⟨rest.map⟩)
    return .optional (old.map .value)
  | .get key => do
    return .optional ((← making (Value.get? t.map (← operand key))).map .value)
  | .contains key => return .flag (← making (Value.contains t.map (← operand key)))
  | .extendEntries entries => do keep (← making (insertAll (← keptEntries entries)))
  | .addRange range => keep (← making (insertAll range.entries))
  | .dropRange range =>
    let take (o : Owned) (key : Value) : Making Owned :=
      return (← o.take machine elsewhere key).2
    keep (← making (range.keys.foldlM take owned)).map
  | .text => return .text (t.text Value.text Value.text)
  | .freeze =>
    let m ← logged t.freeze
    write of .empty
    store here (.map m)
  | _ => throw .unsupported

def actMapCursor (m : HashTrieMap Value Value) (c : HashTrieMap.Cursor Value Value) :
    Verb → Act Answer
  | .first => return .item (.ofEntry (← result c.first))
  | .key => return .item (.value (← result c.key))
  | .value => return .item (.value (← result c.value))
  | .next => storeOption here (c.next.map (.mapCursor m))
  | .nexts count => do
    let next (c : HashTrieMap.Cursor Value Value) : Act _ := return c.next
    storeOption here ((← repeated next count c).map (.mapCursor m))
  | .count => return .number c.count
  | .walk skip most =>
    walkFrom (fun n c => do
      let (es, c) ← result (HashTrieMap.Cursor.take n c)
      return (es.map .ofEntry, c)) skip most c
  | .text => return .text (← result (c.text Value.text Value.text))
  | _ => throw .unsupported

/-! ## Hash sets -/

def readSet (index : Nat) : Act (HashTrieSet Value) := do
  match ← read index with
  | .set s => return s
  | _ => throw .unsupported

def actSet (s : HashTrieSet Value) : Verb → Act Answer
  | .push x => do store here (.set (← making (Value.addTo s (← operand x))))
  | .drop x => do store here (.set (← making (Value.dropFrom s (← operand x))))
  | .addRange range => do store here (.set (← making (range.keys.foldlM Value.addTo s)))
  | .dropRange range => do store here (.set (← making (range.keys.foldlM Value.dropFrom s)))
  | .contains x => return .flag (← making (Value.contains s.map (← operand x)))
  | .get x => do
    return .optional ((← making (Value.entryAt? s.map (← operand x))).map fun e => .value e.1)
  | .isSubset other => return .flag (← result (s.isSubset (← readSet other)))
  | .union other => do store here (.set (← logged (s.union (← readSet other))))
  | .intersection other => do store here (.set (← logged (s.intersection (← readSet other))))
  | .difference other => do store here (.set (← logged (s.difference (← readSet other))))
  | .transient => store here (.transientSet s.transient)
  | .cursor => storeOption here (s.cursor.map .setCursor)
  | .walk skip most =>
    walkWith (fun it => (it.remaining, some it.remaining))
      (fun n it =>
        let (xs, it) := HashTrieSet.Iter.take n it
        return (xs.map .value, it))
      skip most s.iter
  | .fold f =>
    return .fold (Id.run (s.reduceM (fun p x => p.step f (.value x)) .start))
  | .text => return .text (s.text Value.text)
  | .wordHash => do
    let s := s.hashed
    write of (.set s)
    return .code (hashCode (FxHashed.mk s.hash))
  | .equals other => return .flag (← result (s.equals (← readSet other)))
  | _ => throw .unsupported

def actTransientSet (t : HashTrieSet.Transient Value) (verb : Verb) : Act Answer := do
  let keep (m : HashTrieMap Value Unit) : Act Answer := store of (.transientSet ⟨⟨m⟩⟩)
  let addAll (xs : List Value) : Making (HashTrieMap Value Unit) :=
    xs.foldlM (fun m x => return (← Value.add m x).2) t.map.map
  let take (m : HashTrieMap Value Unit) (x : Value) := Value.take (.writtenBy m.stamp) m x
  match verb with
  | .push x => keep (← making (Value.add t.map.map (← operand x))).2
  | .drop x => keep (← making (take t.map.map (← operand x))).2
  | .exchange _ x =>
    let (added, m) ← making (Value.add t.map.map (← operand x))
    write of (.transientSet ⟨⟨m⟩⟩)
    return .flag added
  | .take x =>
    let (old, m) ← making (take t.map.map (← operand x))
    write of (.transientSet ⟨⟨m⟩⟩)
    return .flag old.isSome
  | .contains x => return .flag (← making (Value.contains t.map.map (← operand x)))
  | .extend items => do
    let items ← making (Literal.buildList items)
    keep (← making (addAll items))
  | .addRange range => keep (← making (addAll range.keys))
  | .dropRange range =>
    keep (← making (range.keys.foldlM (fun m x => return (← take m x).2) t.map.map))
  | .text => return .text (t.text Value.text)
  | .freeze =>
    let s ← logged t.freeze
    write of .empty
    store here (.set s)
  | _ => throw .unsupported

def actSetCursor (c : HashTrieSet.Cursor Value) : Verb → Act Answer
  | .first => return .item (.value (← result c.first))
  | .next => storeOption here (c.next.map .setCursor)
  | .nexts count => do
    let next (c : HashTrieSet.Cursor Value) : Act _ := return c.next
    storeOption here ((← repeated next count c).map .setCursor)
  | .count => return .number c.count
  | .walk skip most =>
    walkFrom (fun n c => do
      let (xs, c) ← result (HashTrieSet.Cursor.take n c)
      return (xs.map .value, c)) skip most c
  | _ => throw .unsupported

/-! ## Sorted maps -/

def actSortedMap (named : Bool) (m : SortedMap Value Value) : Verb → Act Answer
  | .put key value => do
    store here (.sortedMap named (m.insert (← kept key) (← kept value)))
  | .drop key => do store here (.sortedMap named (← result (m.erase (← operand key))))
  | .addRange range =>
    store here (.sortedMap named (range.entries.foldl (fun m e => m.insert e.1 e.2) m))
  | .dropRange range => do
    store here (.sortedMap named (← result (range.keys.foldlM SortedMap.erase m)))
  | .get key => return .optional ((m.get? (← operand key)).map .value)
  | .getOr key fallback => do
    return .item (.value (m.getD (← operand key) (← operand fallback)))
  | .contains key => return .flag (m.contains (← operand key))
  | .entryAt key => return .optional ((m.entryAt? (← operand key)).map .ofEntry)
  | .first => return .optional (m.first?.map .ofEntry)
  | .last => return .optional (m.last?.map .ofEntry)
  | .keys => return .items (m.keys.map .value)
  | .values => return .items (m.values.map .value)
  | .cursor => storeOption here ((m.cursor true).map .sortedMapCursor)
  | .backCursor => storeOption here ((m.cursor false).map .sortedMapCursor)
  | .cursorAt key ascending => do
    storeOption here ((m.cursorAt (← operand key) ascending).map .sortedMapCursor)
  | .range low high => do
    return .items ((m.range (← bound low) (← bound high)).toList.map .ofEntry)
  | .backRange low high => do
    return .items ((m.backRange (← bound low) (← bound high)).toList.map .ofEntry)
  | .check => return .check m.check
  | .comparator => return .text m.comparator.label
  | .searchPath key => do
    let key ← operand key
    return .path (m.contains key) (m.searchPath key)
  | .walk skip most =>
    walkWith SortedMap.Iter.sizeHint
      (fun n it =>
        let (es, it) := SortedMap.Iter.take n it
        return (es.map .ofEntry, it))
      skip most m.iter
  | .fold f =>
    return .fold (Id.run (m.reduceM (fun p e => p.step f (.ofEntry e)) .start))
  | .foldEntries f =>
    return .fold (Id.run (m.reduceEntriesM (fun p k v => p.step f (.entry k v)) .start))
  | .text => return .text (m.text Value.text Value.text)
  | .wordHash => do
    let m := m.hashed
    write of (.sortedMap named m)
    return .code (hashCode (FxHashed.mk m.hash))
  | .equals other => do
    match ← read other with
    | .sortedMap _ n => return .flag (m.equals n)
    | _ => throw .unsupported
  | _ => throw .unsupported

def actSortedMapCursor (c : SortedMap.Cursor Value Value) : Verb → Act Answer
  | .first => return .item (.ofEntry c.first)
  | .key => return .item (.value c.key)
  | .value => return .item (.value c.value)
  | .next => storeOption here (c.next.map .sortedMapCursor)
  | .nexts count => do
    let next (c : SortedMap.Cursor Value Value) : Act _ := return c.next
    storeOption here ((← repeated next count c).map .sortedMapCursor)
  | .count => return .number c.count
  | .walk skip most =>
    walkFrom (fun n c =>
      let (es, c) := SortedMap.Cursor.take n c
      return (es.map .ofEntry, c)) skip most c
  | .text => return .text (c.text Value.text Value.text)
  | _ => throw .unsupported

/-! ## Sorted sets -/

def actSortedSet (named : Bool) (s : SortedSet Value) : Verb → Act Answer
  | .push x => do store here (.sortedSet named (s.insert (← kept x)))
  | .drop x => do store here (.sortedSet named (← result (s.erase (← operand x))))
  | .addRange range => store here (.sortedSet named (range.keys.foldl SortedSet.insert s))
  | .dropRange range => do
    store here (.sortedSet named (← result (range.keys.foldlM SortedSet.erase s)))
  | .contains x => return .flag (s.contains (← operand x))
  | .get x => return .optional ((s.get? (← operand x)).map .value)
  | .first => return .optional (s.first?.map .value)
  | .last => return .optional (s.last?.map .value)
  | .cursor => storeOption here ((s.cursor true).map .sortedSetCursor)
  | .backCursor => storeOption here ((s.cursor false).map .sortedSetCursor)
  | .cursorAt x ascending => do
    storeOption here ((s.cursorAt (← operand x) ascending).map .sortedSetCursor)
  | .range low high => do
    return .items ((s.range (← bound low) (← bound high)).map .value)
  | .backRange low high => do
    return .items ((s.backRange (← bound low) (← bound high)).map .value)
  | .check => return .check s.check
  | .comparator => return .text s.comparator.label
  | .walk skip most =>
    walkWith SortedSet.Iter.sizeHint
      (fun n it =>
        let (xs, it) := SortedSet.Iter.take n it
        return (xs.map .value, it))
      skip most s.iter
  | .fold f =>
    return .fold (Id.run (s.reduceM (fun p x => p.step f (.value x)) .start))
  | .text => return .text (s.text Value.text)
  | .wordHash => do
    let s := s.hashed
    write of (.sortedSet named s)
    return .code (hashCode (FxHashed.mk s.hash))
  | .equals other => do
    match ← read other with
    | .sortedSet _ t => return .flag (s.equals t)
    | _ => throw .unsupported
  | _ => throw .unsupported

def actSortedSetCursor (c : SortedSet.Cursor Value) : Verb → Act Answer
  | .first => return .item (.value c.first)
  | .next => storeOption here (c.next.map .sortedSetCursor)
  | .nexts count => do
    let next (c : SortedSet.Cursor Value) : Act _ := return c.next
    storeOption here ((← repeated next count c).map .sortedSetCursor)
  | .count => return .number c.count
  | .walk skip most =>
    walkFrom (fun n c =>
      let (xs, c) := SortedSet.Cursor.take n c
      return (xs.map .value, c)) skip most c
  | _ => throw .unsupported

end

/-! ## Sessions -/

/-- Do something with what the register `of` holds. -/
def act (here of : Nat) (verb : Verb) : Act Answer := do
  let r ← read of
  match verb, r with
  | .state, _ => store of r
  | _, .empty => throw .emptyRegister
  | _, .vector number v => actVector here of number v verb
  | _, .window w => actWindow here of w verb
  | _, .map m => actMap here of (m.stamped (version here)) verb
  | _, .set s => actSet here of (s.stamped (version here)) verb
  | _, .sortedMap named m => actSortedMap here of named m verb
  | _, .sortedSet named s => actSortedSet here of named s verb
  | _, .transientVector number t => actTransientVector here of number t verb
  | _, .transientMap t => actTransientMap here of t verb
  | _, .transientSet t => actTransientSet here of t verb
  | _, .vectorCursor c => actVectorCursor here c verb
  | _, .backCursor c => actBackCursor here c verb
  | _, .mapCursor m c => actMapCursor here m c verb
  | _, .setCursor c => actSetCursor here c verb
  | _, .sortedMapCursor c => actSortedMapCursor here c verb
  | _, .sortedSetCursor c => actSortedSetCursor here c verb

/-- One step, which owns the register `here`. -/
def runStep (here : Nat) : Step → Act Answer
  | .vector items => do storeVector here (← logged (TrieVector.ofList (← keptAll items)))
  | .map entries => do
    store here (.map (← making (Value.collectMap (version here) (← keptEntries entries))))
  | .set items => do
    let items ← making (Literal.buildList items)
    store here (.set (← making (Value.collectSet items)))
  | .sortedMap entries => do
    let entries := (← keptEntries entries).map fun e => (e.1.hashed, e.2)
    store here (.sortedMap false (.ofList entries))
  | .sortedSet items => do store here (.sortedSet false (.ofList (← keptAll items)))
  | .emptyVector => storeVector here .empty
  | .emptyMap => store here (.map .empty)
  | .emptySet => store here (.set .empty)
  | .emptyTransientVector => do store here (.transientVector (← making newNumber) .empty)
  | .emptyTransientMap => store here (.transientMap (HashTrieMap.empty.stamped (version here)).thaw)
  | .emptyTransientSet => store here (.transientSet .empty)
  | .emptySortedMap c => store here (.sortedMap c.isSome (.empty (c.getD .natural)))
  | .emptySortedSet c => store here (.sortedSet c.isSome (.empty (c.getD .natural)))
  | .act of verb => act here of verb

/-- What a step reports, with the records it left. -/
structure Report where
  outcome : Except Failure Answer
  log : Array Event

/-- The reports of the steps from the one of number `here` on. -/
def runFrom (machine : Machine) (here : Nat) (reports : Array Report) :
    List Step → Array Report
  | [] => reports
  | step :: steps =>
    let (outcome, machine) := (runStep here step).run { machine with log := #[] }
    runFrom machine (here + 1) (reports.push ⟨outcome, machine.log⟩) steps

/-- Run a session from empty registers. -/
def run (steps : List Step) : Array Report :=
  runFrom (.start steps.length) 0 #[] steps

end PersistentCollections.Session
