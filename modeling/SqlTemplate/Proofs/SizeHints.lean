import SqlTemplate.Proofs.Joining

/-!
# Size hints

A fragment keeps an estimate of the length of its text, which every call brings up to date. What it
should be is the hint of a fragment that is made at once of the same chunks and values
(`Fragment.exactHint`). A text or a value that is pushed is counted once. A fragment that is
appended brings its whole hint, although its first chunk becomes one with the last chunk and is
counted there: these bytes are counted twice (`Fragment.sizeHint_concat`), and no later call makes
up for it (`Fragment.sizeHint_of_composed`).
-/

namespace SqlTemplate

namespace Fragment

/-! ### The hint of chunks and values -/

theorem hintOf_append_params (chunks : List String) (params more : List Value) :
    hintOf chunks (params ++ more) = hintOf [] params + hintOf chunks more := by
  induction chunks with
  | nil =>
    induction params with
    | nil => exact (Nat.zero_add _).symm
    | cons value rest ih =>
      simp only [hintOf, List.foldr_nil, List.cons_append, List.foldr_cons] at ih ⊢
      omega
  | cons chunk rest ih =>
    simp only [hintOf, List.foldr_cons] at ih ⊢
    omega

/-- Chunks and values are counted one by one. -/
theorem hintOf_append (front back : List String) (params more : List Value) :
    hintOf (front ++ back) (params ++ more) = hintOf front params + hintOf back more := by
  induction front with
  | nil => exact hintOf_append_params back params more
  | cons chunk rest ih =>
    simp only [hintOf, List.cons_append, List.foldr_cons] at ih ⊢
    omega

theorem hintOf_cons (chunk : String) (chunks : List String) (params : List Value) :
    hintOf (chunk :: chunks) params = chunk.utf8ByteSize + hintOf chunks params := rfl

/-- The hint of a fragment that is made at once of the chunks and values of this one. -/
def exactHint (f : Fragment) : Nat := hintOf f.chunks f.params

theorem ofChunks_ok {s : Settings} {chunks : List String} {params : List Value} {f : Fragment}
    (h : ofChunks s chunks params = .ok f) :
    f.chunks = chunks ∧ f.params = params ∧ f.sizeHint = f.exactHint := by
  unfold ofChunks at h
  cases chunks with
  | nil => cases h
  | cons head rest =>
    dsimp only at h
    split at h
    · rename_i hlength
      cases h
      have hchunks : (params.zip rest).map (·.2) = rest := List.map_snd_zip hlength.le
      have hparams : (params.zip rest).map (·.1) = params := List.map_fst_zip hlength.ge
      refine ⟨congrArg (head :: ·) hchunks, hparams, ?_⟩
      show hintOf (head :: rest) params = hintOf (head :: (params.zip rest).map (·.2)) _
      rw [hchunks]
      exact congrArg (hintOf (head :: rest)) hparams.symm
    · cases h

/-! ### One call -/

theorem sizeHint_pushSql (f : Fragment) (sql : String) :
    (f.pushSql sql).sizeHint = f.sizeHint + sql.utf8ByteSize := by
  unfold pushSql
  split <;> rfl

theorem exactHint_pushSql (f : Fragment) (sql : String) :
    (f.pushSql sql).exactHint = f.exactHint + sql.utf8ByteSize := by
  obtain ⟨front, hchunks, hchunks'⟩ := f.chunks_pushSql sql
  have hlast (last : String) :
      hintOf (front ++ [last]) f.params = hintOf front f.params + last.utf8ByteSize := by
    have happend := hintOf_append front [last] f.params []
    rwa [List.append_nil, hintOf_cons] at happend
  rw [exactHint, exactHint, hchunks, hchunks', params_pushSql, hlast, hlast,
    String.utf8ByteSize_append, Nat.add_assoc]

theorem exactHint_pushParam (f : Fragment) (value : Value) :
    (f.pushParam value).exactHint = f.exactHint + value.estimate := by
  have hparams : (f.pushParam value).params = f.params ++ [value] := by
    simp [params, pushParam]
  have hpushed : hintOf [""] [value] = value.estimate := by
    simp [hintOf]
  rw [exactHint, chunks_pushParam, hparams, hintOf_append, hpushed, exactHint]

/-- A fragment that is appended brings its own hint, and the bytes of its first chunk once more. -/
theorem sizeHint_concat {f other joined : Fragment} (h : f.concat other = .ok joined) :
    joined.sizeHint = f.sizeHint + other.head.utf8ByteSize + other.sizeHint := by
  obtain ⟨_, -, h⟩ := bind_eq_ok h
  cases h
  exact congrArg (· + other.sizeHint) (f.sizeHint_pushSql other.head)

theorem exactHint_concat {f other joined : Fragment} (h : f.concat other = .ok joined) :
    joined.exactHint = f.exactHint + other.exactHint := by
  obtain ⟨_, -, h⟩ := bind_eq_ok h
  cases h
  have hchunks : (f.pushSql other.head).chunks ++ other.holes.map (·.2)
      = (f.pushSql other.head).head ::
        ((f.pushSql other.head).holes ++ other.holes).map (·.2) := by
    rw [chunks, List.map_append, List.cons_append]
  have hparams : (f.pushSql other.head).params ++ other.params
      = ((f.pushSql other.head).holes ++ other.holes).map (·.1) := by
    rw [params, params, List.map_append]
  calc hintOf _ _
      = (f.pushSql other.head).exactHint + hintOf (other.holes.map (·.2)) other.params := by
        rw [exactHint, ← hintOf_append, hchunks, hparams]
        rfl
    _ = f.exactHint + other.exactHint := by
        rw [exactHint_pushSql, Nat.add_assoc]
        rfl

/-! ### Every sequence of calls -/

/-- A fragment is made at once or empty and then changed by calls, in the course of which `n` bytes
are counted twice: those of the first chunks of the fragments that are appended to it, or to one of
these. -/
inductive Composed : Fragment → Nat → Prop
  | ofChunks {s : Settings} {chunks : List String} {params : List Value} {f : Fragment}
      (h : ofChunks s chunks params = .ok f) : Composed f 0
  | empty (s : Settings) : Composed (empty s) 0
  | pushSql {f : Fragment} {n : Nat} (h : Composed f n) (sql : String) : Composed (f.pushSql sql) n
  | pushParam {f : Fragment} {n : Nat} (h : Composed f n) (value : Value) :
      Composed (f.pushParam value) n
  | concat {f other joined : Fragment} {n m : Nat} (h : Composed f n) (hother : Composed other m)
      (hok : f.concat other = .ok joined) :
      Composed joined (n + m + other.head.utf8ByteSize)
  /-- A fragment that may not be embedded changes nothing. -/
  | refused {f other : Fragment} {n m : Nat} {e : Error} (h : Composed f n)
      (hother : Composed other m) (herror : f.concat other = .error e) : Composed f n

theorem Composed.sizeHint_eq {f : Fragment} {n : Nat} (h : f.Composed n) :
    f.sizeHint = f.exactHint + n := by
  induction h with
  | ofChunks h => exact (ofChunks_ok h).2.2
  | empty s => rfl
  | pushSql _ sql ih =>
    rw [sizeHint_pushSql, exactHint_pushSql, ih]
    omega
  | @pushParam f _ _ value ih =>
    have hpushed : (f.pushParam value).sizeHint = f.sizeHint + value.estimate := rfl
    rw [hpushed, exactHint_pushParam, ih]
    omega
  | concat _ _ hok ih ih' =>
    rw [sizeHint_concat hok, exactHint_concat hok, ih, ih']
    omega
  | refused _ _ _ ih => exact ih

/-- The size hint of a fragment exceeds that of one made at once of the same chunks and values by
the bytes that are counted twice. So it is the same iff no text was at the front of a fragment that
was appended, and a fragment that holds one of two with the same chunks and values estimates it
alike iff as many bytes of the other are counted twice. -/
theorem sizeHint_of_composed {f : Fragment} {n : Nat} (h : f.Composed n) :
    ∃ again, ofChunks f.settings f.chunks f.params = .ok again ∧
      f.sizeHint = again.sizeHint + n ∧ (f.sizeHint = again.sizeHint ↔ n = 0) ∧
      ∀ {g : Fragment} {m : Nat}, g.Composed m → g.chunks = f.chunks → g.params = f.params →
        ((Value.fragment g).estimate = (Value.fragment f).estimate ↔ m = n) := by
  obtain ⟨hint, hagain⟩ := ofChunks_chunks f.settings f
  have hhint : hint = f.exactHint := (ofChunks_ok hagain).2.2
  have hexceeds := h.sizeHint_eq
  refine ⟨_, hagain, ?_, ?_, ?_⟩
  · rw [hexceeds, hhint]
  · dsimp only
    omega
  · intro g m hg hchunks hparams
    have hsame : g.exactHint = f.exactHint := by rw [exactHint, exactHint, hchunks, hparams]
    have hgexceeds := hg.sizeHint_eq
    simp only [Value.estimate]
    omega

/-- A condition is appended to a query: its seven bytes are counted twice, and those of the first
fragment that was appended to it, which is refused, are not. -/
theorem sizeHint_of_composed_filter :
    let s := Settings.ofDialect .mysql
    let query : Fragment := ⟨s, "SELECT 1", [], 8⟩
    let only : Fragment := ⟨.ofDialect .postgresOnly, "::int", [], 5⟩
    let filter : Fragment := ⟨s, " WHERE ", [(.bool true, "")], 12⟩
    let joined : Fragment := ⟨s, "SELECT 1 WHERE ", [(.bool true, "")], 27⟩
    (∃ e, query.concat only = .error e) ∧ query.concat filter = .ok joined ∧ joined.Composed 7 ∧
      ∃ again, ofChunks s ["SELECT 1 WHERE ", ""] [.bool true] = .ok again ∧
        again.sizeHint = 20 ∧ joined.sizeHint = again.sizeHint + 7 := by
  intro s query only filter joined
  have hmade : ofChunks s ["SELECT 1"] [] = .ok query := rfl
  have hquery : query.Composed 0 := .ofChunks hmade
  have honly : only.Composed 0 := .pushSql (.empty (.ofDialect .postgresOnly)) "::int"
  have hfilter : filter.Composed 0 := .pushParam (.pushSql (.empty s) " WHERE ") (.bool true)
  have hjoined : query.concat filter = .ok joined := rfl
  have hcomposed : joined.Composed 7 := .concat (.refused hquery honly rfl) hfilter hjoined
  obtain ⟨again, hagain, hhint, -⟩ := sizeHint_of_composed hcomposed
  have hsize : joined.sizeHint = 27 := rfl
  exact ⟨⟨_, rfl⟩, hjoined, hcomposed, again, hagain, by omega, hhint⟩

end Fragment

end SqlTemplate
