import FeatureFlags.Proofs.Scanning
import FeatureFlags.Yaml.Node

/-!
# Written mappings

A mapping is written pair by pair, and read back as the mapping of the same pairs
(`ofText?_pairs`): scanning goes over the pairs one after another (`readTokens_pairs`), and so does
reading nodes from the tokens (`blockMapping_pairs`).
-/

namespace FeatureFlags.Yaml

/-- A key, what is written for its value, and the scalar that the value is. -/
structure Pair where
  key : String
  written : List Char
  value : Scalar

namespace Pair

def source (pair : Pair) : List Char := writePair pair.key pair.written

def tokens (pair : Pair) : List Token :=
  [.key, .scalar .plain pair.key.toList, .value,
    .scalar pair.value.style pair.value.text.toList]

def nodes (pair : Pair) : Node × Node := (.scalar ⟨.plain, none, pair.key⟩, .scalar pair.value)

/-- What is written for the pair is read back. -/
structure Readable (pair : Pair) : Prop where
  key : KeyWord pair.key.toList
  value : Written pair.written pair.value.style pair.value.text.toList
  untagged : pair.value.tag = none

variable {pair : Pair} {pairs : List Pair}

theorem Readable.source_eq (h : pair.Readable) :
    pair.source = pair.key.toList ++ ':' :: ' ' :: (pair.written ++ endingOf pair.written) := by
  obtain ⟨c, later, hwritten, -⟩ := h.value.head
  have hlast : (pair.key.toList ++ ':' :: ' ' :: pair.written).getLast? =
      pair.written.getLast? := by
    rw [hwritten, List.getLast?_append_of_ne_nil _ (List.cons_ne_nil _ _), List.getLast?_cons_cons,
      List.getLast?_cons_cons]
  unfold source writePair endingOf
  simp only [hlast]
  split
  · rw [List.append_nil]
  · rw [List.append_assoc, List.cons_append, List.cons_append]

theorem Readable.startsPair (h : pair.Readable) (more : List Char) :
    Lexer.StartsPair (pair.source ++ more) := by
  obtain ⟨c, word, hword, hgap⟩ := h.key.bare.head
  have hcomment := h.key.bare.head?_ne_comment []
  have hprintable := h.key.printable
  rw [h.source_eq]
  rw [hword] at hcomment hprintable ⊢
  have hhead : c ≠ '#' := by simpa using hcomment
  have hmark : c ≠ '\ufeff' := by
    rintro rfl
    cases hprintable _ List.mem_cons_self
  simp [Lexer.StartsPair, hgap, hhead, hmark]

theorem startsPair_flatMap (h : ∀ pair ∈ pairs, pair.Readable) :
    Lexer.StartsPair (pairs.flatMap source) := by
  cases pairs with
  | nil => rfl
  | cons pair pairs => exact (h pair List.mem_cons_self).startsPair _

/-- Every source has three characters at least. -/
theorem Readable.length_le (h : pair.Readable) : 3 ≤ pair.source.length := by
  obtain ⟨c, word, hword, -⟩ := h.key.bare.head
  rw [h.source_eq, hword]
  simp
  omega

theorem le_length_flatMap (h : ∀ pair ∈ pairs, pair.Readable) :
    3 * pairs.length ≤ (pairs.flatMap source).length := by
  induction pairs with
  | nil => exact Nat.le_refl 0
  | cons pair pairs ih =>
      obtain ⟨hpair, hpairs⟩ := List.forall_mem_cons.mp h
      have hfirst := hpair.length_le
      have hrest := ih hpairs
      rw [List.flatMap_cons, List.length_append, List.length_cons]
      omega

theorem Readable.printable (h : pair.Readable) : ∀ c ∈ pair.source, isPrintable c = true := by
  have hending : ∀ c ∈ endingOf pair.written, isPrintable c = true := by
    unfold endingOf
    split
    · simp
    · exact List.forall_mem_singleton.mpr (by decide)
  rw [h.source_eq]
  refine List.forall_mem_append.mpr ⟨h.key.printable, ?_⟩
  refine List.forall_mem_cons.mpr ⟨by decide, List.forall_mem_cons.mpr ⟨by decide, ?_⟩⟩
  exact List.forall_mem_append.mpr ⟨h.value.printable, hending⟩

end Pair

namespace Lexer

variable {tokens : Array Token} {margins : List Nat} {more : List Char} {lexer : Lexer}

theorem readTokens_token {count : Nat} {next after : Lexer} (hnext : lexer.advance = some next)
    (hrest : next.rest ≠ []) (hread : next.readToken = some after) :
    readTokens (count + 1) lexer = readTokens count after := by
  rw [readTokens, hnext]
  simp only [hrest, hread]
  rfl

/-- A key and its colon give three tokens, before which the first of them opens the mapping. -/
theorem readTokens_key {key : List Char} (hkey : KeyWord key)
    (hmargins : margins = [] ∨ margins = [1])
    (hlexer : Between tokens margins (key ++ ':' :: ' ' :: more) lexer) (count : Nat) :
    ∃ line column bytes, readTokens (count + 2) lexer = readTokens count
      ⟨⟨' ' :: more, line, column, bytes⟩,
        tokens ++ (if margins = [] then #[.blockMappingStart] else #[]) ++
          #[.key, .scalar .plain key, .value], [1], false, none, []⟩ := by
  obtain ⟨line, hadvance⟩ := hlexer
  have hne : (atPair tokens margins (key ++ ':' :: ' ' :: more) line).rest ≠ [] := by
    simp [atPair, rest]
  refine ⟨line, key.length + 1, Cursor.ofLineAfter Char.utf8Size 0 key + 1,
    (readTokens_token hadvance hne (readToken_key hkey line more)).trans ?_⟩
  exact readTokens_token (advance_colon hkey hmargins line more _ _) (List.cons_ne_nil _ _)
    (readToken_colon hkey hmargins line _ more _)

/-- What is written for a value gives its scalar. -/
theorem readTokens_value {written text : List Char} {style : Style} (h : Written written style text)
    (hmore : StartsPair more) (line column bytes count : Nat) :
    ∃ after, readTokens (count + 1)
        ⟨⟨' ' :: (written ++ (endingOf written ++ more)), line, column, bytes⟩, tokens, [1], false,
          none, []⟩ = readTokens count after ∧
      Between (tokens.push (.scalar style text)) [1] more after := by
  obtain ⟨c, later, hwritten, hgap, hcomment⟩ := h.head
  obtain ⟨after, hread, hafter⟩ := h.readToken line (column + 1) (bytes + 1) hmore
    (Nat.succ_pos column)
  refine ⟨after, readTokens_token ?_ ?_ hread, hafter⟩
  · rw [hwritten]
    exact advance_value hgap hcomment line column bytes
  · rw [hwritten]
    exact List.cons_ne_nil _ _

/-- A pair is scanned into its tokens, and the first one opens the mapping. -/
theorem readTokens_pair {pair : Pair} (h : pair.Readable) (hmargins : margins = [] ∨ margins = [1])
    (hmore : StartsPair more) (hlexer : Between tokens margins (pair.source ++ more) lexer)
    (count : Nat) :
    ∃ after, readTokens (count + 3) lexer = readTokens count after ∧
      Between (tokens ++ (if margins = [] then #[.blockMappingStart] else #[]) ++
        pair.tokens.toArray) [1] more after := by
  have hsource : pair.source ++ more = pair.key.toList ++ ':' :: ' ' ::
      (pair.written ++ (endingOf pair.written ++ more)) := by
    rw [h.source_eq]
    simp
  rw [hsource] at hlexer
  obtain ⟨line, column, bytes, hkey⟩ := readTokens_key h.key hmargins hlexer (count + 1)
  obtain ⟨after, hvalue, hafter⟩ := readTokens_value h.value hmore line column bytes count
  refine ⟨after, hkey.trans hvalue, ?_⟩
  rwa [Array.push_eq_append, Array.append_assoc] at hafter

theorem readTokens_end (hlexer : Between tokens [1] [] lexer) (count : Nat) :
    readTokens (count + 1) lexer = some (tokens.toList ++ [.blockEnd]) := by
  obtain ⟨line, hend⟩ := hlexer
  rw [readTokens, hend]
  simp [atPair, rest, finish, closeBlocks, inFlow, dropCandidate]

theorem readTokens_pairs {pairs : List Pair} (h : ∀ pair ∈ pairs, pair.Readable)
    (hlexer : Between tokens [1] (pairs.flatMap Pair.source) lexer) (count : Nat) :
    readTokens (count + 3 * pairs.length + 1) lexer =
      some (tokens.toList ++ (pairs.flatMap Pair.tokens ++ [.blockEnd])) := by
  induction pairs generalizing tokens lexer with
  | nil => simpa using readTokens_end hlexer count
  | cons pair pairs ih =>
      obtain ⟨hpair, hpairs⟩ := List.forall_mem_cons.mp h
      rw [List.flatMap_cons] at hlexer
      have hmore := Pair.startsPair_flatMap hpairs
      obtain ⟨after, hread, hafter⟩ := readTokens_pair hpair (.inr rfl) hmore hlexer
        (count + 3 * pairs.length + 1)
      have hcount : count + 3 * (pair :: pairs).length + 1 = count + 3 * pairs.length + 1 + 3 := by
        rw [List.length_cons]
        omega
      rw [hcount, hread, ih hpairs hafter]
      simp

/-- The mapping starts before the first pair. -/
theorem readTokens_start {pairs : List Pair} (hne : pairs ≠ [])
    (h : ∀ pair ∈ pairs, pair.Readable) (count : Nat) :
    readTokens (count + 3 * pairs.length + 1) (.start (pairs.flatMap Pair.source)) =
      some (.blockMappingStart :: (pairs.flatMap Pair.tokens ++ [.blockEnd])) := by
  have hstart : Between #[] [] (pairs.flatMap Pair.source) (.start (pairs.flatMap Pair.source)) :=
    between_atPair (by simp) (Pair.startsPair_flatMap h) 0
  obtain ⟨pair, pairs, rfl⟩ := List.exists_cons_of_ne_nil hne
  obtain ⟨hpair, hpairs⟩ := List.forall_mem_cons.mp h
  obtain ⟨after, hread, hafter⟩ := readTokens_pair hpair (.inl rfl)
    (Pair.startsPair_flatMap hpairs) hstart (count + 3 * pairs.length + 1)
  have hcount : count + 3 * (pair :: pairs).length + 1 = count + 3 * pairs.length + 1 + 3 := by
    rw [List.length_cons]
    omega
  rw [hcount, hread, readTokens_pairs hpairs hafter]
  simp

end Lexer

/-- There are tokens enough, since each of them takes a character. -/
theorem tokens?_pairs {pairs : List Pair} (hne : pairs ≠ []) (h : ∀ pair ∈ pairs, pair.Readable) :
    tokens? (String.ofList (pairs.flatMap Pair.source)) =
      some (.blockMappingStart :: (pairs.flatMap Pair.tokens ++ [.blockEnd])) := by
  have hprintable : ∀ c ∈ pairs.flatMap Pair.source, isPrintable c = true := by
    intro c hc
    obtain ⟨pair, hpair, hc⟩ := List.mem_flatMap.mp hc
    exact (h pair hpair).printable c hc
  have hpermitted : (pairs.flatMap Pair.source).all isPermitted = true :=
    List.all_eq_true.mpr fun c hc => isPermitted_of_isPrintable (hprintable c hc)
  have hunified : unifyBreaks (pairs.flatMap Pair.source) = pairs.flatMap Pair.source :=
    unifyBreaks_eq_self fun c hc => (ne_of_isPrintable (hprintable c hc)).2
  obtain ⟨count, hcount⟩ := Nat.exists_eq_add_of_le' (Pair.le_length_flatMap h)
  unfold tokens?
  simp only [String.toList_ofList, hpermitted, if_true, hunified, hcount]
  exact Lexer.readTokens_start hne h count

/-! ## Reading nodes -/

namespace NodeReader

variable {anchors : Anchors} {handles : TagHandles} {rest : List Token} {depth : Nat}

theorem blockMapping_end :
    blockMapping (depth + 1) ⟨.blockEnd :: rest, anchors, handles⟩ =
      some ([], ⟨rest, anchors, handles⟩) := rfl

/-- A pair of scalars is read before the pairs after it. -/
theorem blockMapping_cons {pair : Pair} (h : pair.Readable) {nodes : List (Node × Node)}
    {after : NodeReader}
    (hrest : blockMapping (depth + 2) ⟨rest, anchors, handles⟩ = some (nodes, after)) :
    blockMapping (depth + 3) ⟨pair.tokens ++ rest, anchors, handles⟩ =
      some (pair.nodes :: nodes, after) := by
  have hstep : blockMapping (depth + 3) ⟨pair.tokens ++ rest, anchors, handles⟩ =
      (blockMapping (depth + 2) ⟨rest, anchors, handles⟩).bind fun (nodes, after) =>
        some ((.scalar ⟨.plain, none, String.ofList pair.key.toList⟩,
          .scalar ⟨pair.value.style, none, String.ofList pair.value.text.toList⟩) :: nodes, after) :=
    rfl
  have hvalue : Scalar.mk pair.value.style none pair.value.text = pair.value := by
    rw [← h.untagged]
  rw [hstep, hrest, String.ofList_toList, String.ofList_toList, hvalue]
  rfl

/-- The pairs of a mapping are read one after another. -/
theorem blockMapping_pairs {pairs : List Pair} (h : ∀ pair ∈ pairs, pair.Readable)
    (hdepth : pairs.length + 3 ≤ depth) :
    blockMapping depth ⟨pairs.flatMap Pair.tokens ++ .blockEnd :: rest, anchors, handles⟩ =
      some (pairs.map Pair.nodes, ⟨rest, anchors, handles⟩) := by
  induction pairs generalizing depth with
  | nil =>
      obtain ⟨depth, rfl⟩ := Nat.exists_eq_add_of_le' hdepth
      exact blockMapping_end
  | cons pair pairs ih =>
      obtain ⟨hpair, hpairs⟩ := List.forall_mem_cons.mp h
      obtain ⟨depth, rfl⟩ := Nat.exists_eq_add_of_le' hdepth
      rw [List.flatMap_cons, List.append_assoc]
      exact blockMapping_cons hpair (ih hpairs (by simp))

theorem node_mapping (indentless : Bool) {nodes : List (Node × Node)} {after : NodeReader}
    (h : blockMapping depth ⟨rest, anchors, handles⟩ = some (nodes, after)) :
    node (depth + 1) true indentless ⟨.blockMappingStart :: rest, anchors, handles⟩ =
      some (.mapping nodes, after) := by
  have hstep : node (depth + 1) true indentless ⟨.blockMappingStart :: rest, anchors, handles⟩ =
      (blockMapping depth ⟨rest, anchors, handles⟩).bind fun (nodes, after) =>
        some (.mapping nodes, after) := rfl
  rw [hstep, h]
  rfl

theorem document_of_node {tokens : List Token} {root : Node} {after : NodeReader}
    (h : node (maxDepth tokens) true false ⟨tokens, anchors, handles⟩ = some (root, after))
    (hend : after.tokens = []) :
    document false ⟨tokens, anchors, handles⟩ = some (root, after) := by
  unfold document
  simp only [Bool.false_and, Bool.false_eq_true, if_false, get, getThe, MonadStateOf.get,
    StateT.get, bind, StateT.bind, Option.bind, pure, h, hend]
  rfl

/-- The depth suffices, since every pair has tokens. -/
theorem document_pairs {pairs : List Pair} (h : ∀ pair ∈ pairs, pair.Readable) :
    document false ⟨.blockMappingStart :: (pairs.flatMap Pair.tokens ++ [.blockEnd]), anchors,
      handles⟩ = some (.mapping (pairs.map Pair.nodes), ⟨[], anchors, handles⟩) := by
  have hlength : (pairs.flatMap Pair.tokens).length = 4 * pairs.length := by
    simp [List.length_flatMap, Pair.tokens, Nat.mul_comm]
  obtain ⟨depth, hdepth⟩ : ∃ depth, maxDepth (.blockMappingStart ::
      (pairs.flatMap Pair.tokens ++ [.blockEnd])) = depth + (pairs.length + 3) + 1 := by
    apply Nat.exists_eq_add_of_le' (m := pairs.length + 4)
    rw [maxDepth, List.length_cons, List.length_append, hlength]
    omega
  refine document_of_node ?_ rfl
  rw [hdepth]
  exact node_mapping false (blockMapping_pairs h (Nat.le_add_left _ _))

end NodeReader

/-- What is written for pairs is the mapping of their scalars. -/
theorem Document.ofText?_pairs {pairs : List Pair} (hne : pairs ≠ [])
    (h : ∀ pair ∈ pairs, pair.Readable) :
    Document.ofText? (String.ofList (pairs.flatMap Pair.source)) =
      some ⟨some (.mapping (pairs.map Pair.nodes)), .empty⟩ := by
  unfold Document.ofText?
  rw [tokens?_pairs hne h, Option.bind_some, Document.ofTokens?, if_neg (List.cons_ne_nil _ _)]
  unfold Document.ofContent?
  rw [NodeReader.document_pairs h]
  rfl

end FeatureFlags.Yaml
