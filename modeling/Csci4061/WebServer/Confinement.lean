import Csci4061.Lib.LexicalPath
import Csci4061.WebServer.GetRequest

/-!
# The path of a request and the web root

A worker passes the text of the web root followed by the file name to `stat` and `open`. The
checks of `get_request` keep `..` out of the name, also after it is cut off, so the path stays
below the root as soon as the name starts a new component. They do not ask for the slash which
makes it start one.
-/

namespace Csci4061.WebServer

open Csci4061.Lib

/-- The path which a worker opens: `working_dir` followed by the file name. -/
def absolutePath (workingDir filename : CString) : CString := workingDir ++ filename

/-- The path of an accepted request is lexically inside the web root exactly when the second word
of the request line starts with a slash. -/
theorem confined_iff_slash (root : NormalPath) {stream : List UInt8} {filename : CString}
    (hok : getRequest stream = some ⟨0, some filename⟩) :
    resolve root.text <+: resolve (absolutePath root.text filename) ↔
      ∃ buf target, fgets 2048 stream = some buf ∧ (requestWords buf)[1]? = some target ∧
        target.head? = some 0x2F := by
  rw [getRequest_eq_parseRequest, Option.some_inj] at hok
  obtain ⟨buf, target, hbuf, htarget, hne, hdots, -, rfl⟩ := parseRequest_accepted hok
  have hnename : target.take 1023 ≠ [] := by simpa using hne
  have hdotsname : ¬ bytes ".." <:+: target.take 1023 :=
    fun hwithin => hdots (hwithin.trans (List.take_prefix 1023 target).isInfix)
  have hhead : (target.take 1023).head? = target.head? := by rw [List.head?_take, if_neg (by decide)]
  rw [absolutePath, root.prefix_resolve_append_iff hnename hdotsname, hhead]
  constructor
  · intro hslash
    exact ⟨buf, target, hbuf, htarget, hslash⟩
  · rintro ⟨buf', target', hbuf', htarget', hslash⟩
    obtain rfl : buf = buf' := Option.some.inj (hbuf.symm.trans hbuf')
    obtain rfl : target = target' := Option.some.inj (htarget.symm.trans htarget')
    exact hslash

/-- A web root with one component. -/
def srvRoot : NormalPath where
  parents := []
  name := bytes "srv"
  isName c hc := by
    obtain rfl : c = bytes "srv" := by simpa using hc
    exact ⟨by decide, by decide +kernel, by decide, by decide⟩

/-- A request for `/x` stays in the web root. -/
theorem confined_iff_slash_getX :
    getRequest (bytes "GET /x HTTP/1.1\n") = some ⟨0, some (bytes "/x")⟩ ∧
      resolve srvRoot.text <+: resolve (absolutePath srvRoot.text (bytes "/x")) := by
  have hok : getRequest (bytes "GET /x HTTP/1.1\n") = some ⟨0, some (bytes "/x")⟩ := by
    rw [getRequest_eq_parseRequest]
    decide
  exact ⟨hok, (confined_iff_slash srvRoot hok).mpr ⟨_, _, rfl, rfl, rfl⟩⟩

/-- An accepted request leaves the web root: without the slash, `/srv` and `x` make `/srvx`. -/
theorem not_confined :
    ¬ ∀ (root : NormalPath) (stream : List UInt8) (filename : CString),
      getRequest stream = some ⟨0, some filename⟩ →
        resolve root.text <+: resolve (absolutePath root.text filename) := by
  intro hall
  have hok : getRequest (bytes "GET x\n") = some ⟨0, some (bytes "x")⟩ := by
    rw [getRequest_eq_parseRequest]
    decide
  have hinside := hall srvRoot _ _ hok
  revert hinside
  decide

end Csci4061.WebServer
