/-
The tokenizer by itself, for any text and any array: it returns, with one slot for each word and NULL behind them.

- `Tokenized`: an array before and after, with the words that have been written to it.
- `tokens_are_words`: the words of a text with fewer than 200 of them, whatever the blanks between them.
-/
import DecsLabs.Shell.Arrays

namespace DecsLabs.Shell

open DecsLabs.CString

variable {m m' : Mem} {l : List Cell} {t t' : Slots ℕ} {toks : List Cell} {x : Option Cell}

/-- the slots point to `toks`, followed by NULL; the slots above are as they were -/
structure Tokenized (t t' : Slots ℕ) (toks : List Cell) : Prop where
  word : ∀ i c, toks[i]? = some c → t' i = some (some c.1)
  null : t' toks.length = some none
  above : ∀ i, toks.length < i → t' i = t i

/-- the loop stops at the slot where it writes NULL -/
theorem tokenized_of_shows {q : Option ℕ} (h : removeSpacesAndCreateTokens m q t = .ok (t', m')) (ht : Shows t' toks)
    (hlen : toks.length < 200) : Tokenized t t' toks := by
  have hnull : t' toks.length = some none := ht.null hlen
  refine ⟨ht.ptr, hnull, ?_⟩
  obtain ⟨j, -, hend, htok, hafter, -⟩ := removeSpacesLoop_slots h
  -- `j` is the last slot that the loop has written to
  have hj : j = toks.length := by
    apply Nat.le_antisymm
    · by_contra hlt
      obtain ⟨a, ha⟩ := htok toks.length (Nat.zero_le _) (by omega)
      rw [hnull] at ha
      cases ha
    · by_contra hlt
      have hjlen : j < toks.length := by omega
      have hptr := ht.ptr j toks[j] (List.getElem?_eq_getElem hjlen)
      rw [hend (by omega)] at hptr
      cases hptr
  intro i hi
  exact hafter i (by omega)

/-- **The words of a text.** For every text, or NULL, with at most 199 words, and every array, the tokenizer returns:
the slots from 0 on point to the words at their places in the text, in order, the next slot is NULL, and no slot above
it is written to. In the buffer each of them is a string of its own. -/
theorem tokens_are_words (h : Held m.buf (x.toList ++ l)) (hk : (words ((x.map Prod.snd).getD [])).length ≤ 199)
    (t : Slots ℕ) :
    ∃ t' m', removeSpacesAndCreateTokens m (x.map Prod.fst) t = .ok (t', m') ∧
      (wordCells x).map Prod.snd = words ((x.map Prod.snd).getD []) ∧ Tokenized t t' (wordCells x) ∧
      Held m'.buf (wordCells x ++ l) := by
  have hlen : (wordCells x).length ≤ 199 := by
    rw [← wordCells_snd, List.length_map] at hk
    exact hk
  obtain ⟨t', m', hrun, hshow, hheld⟩ := removeSpacesAndCreateTokens_cells h t
  rw [List.take_of_length_le (by omega)] at hshow hheld
  exact ⟨t', m', hrun, wordCells_snd x, tokenized_of_shows hrun hshow (by omega), hheld⟩

/-- blanks before, between and behind the two words, in an array that was in use -/
theorem tokens_are_words_example : ∃ t' m', removeSpacesAndCreateTokens ⟨"  ls   -l ".toList ++ [nul], 0⟩ (some 0)
    (fun _ => some (some 7)) = .ok (t', m') ∧ t' 0 = some (some 2) ∧ t' 1 = some (some 7) ∧ t' 2 = some none ∧
      t' 3 = some (some 7) := by
  have hheld : Held ("  ls   -l ".toList ++ [nul]) ((some (0, "  ls   -l ".toList)).toList ++ []) :=
    Held.alone (by decide)
  obtain ⟨t', m', hrun, -, htok, -⟩ := tokens_are_words (m := ⟨"  ls   -l ".toList ++ [nul], 0⟩) hheld (by decide)
    (fun _ => some (some 7))
  have hcells : wordCells (some (0, "  ls   -l ".toList)) = [(2, "ls".toList), (7, "-l".toList)] := by decide
  rw [hcells] at htok
  exact ⟨t', m', hrun, htok.word 0 _ rfl, htok.word 1 _ rfl, htok.null, htok.above 3 (by decide)⟩

end DecsLabs.Shell
