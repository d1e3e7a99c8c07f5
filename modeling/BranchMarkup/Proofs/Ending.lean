import BranchMarkup.Proofs.Reading.Loops
/-! Reading comes to the end of every text. -/
namespace BranchMarkup

open Parse

namespace Program

end Program
end BranchMarkup
